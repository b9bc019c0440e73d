/-
Key-value databases that are written in atomic batches.

A batch is a list of writes, each of which sets or deletes one key; of two
writes to one key the later counts. A crash leaves what the batches before it
have written: `db.writeAll (batches.take k)`. What a key holds after a batch
is settled by the writes to that key alone: there is none (`write_of_ne`), or
they agree (`write_of_agree`).
-/
import Mathlib.Data.List.Induction

namespace HetuEngine.Lib

def Database (K V : Type) := K → Option V

/-- One write of a batch; without a value it deletes the key. -/
structure Write (K V : Type) where
  key : K
  value : Option V

namespace Database

variable {K V : Type} [DecidableEq K]

def empty : Database K V := fun _ => none

def put (db : Database K V) (w : Write K V) : Database K V :=
  fun k => if w.key = k then w.value else db k

def write (db : Database K V) (batch : List (Write K V)) : Database K V := batch.foldl put db

def writeAll (db : Database K V) (batches : List (List (Write K V))) : Database K V :=
  batches.foldl write db

variable {db : Database K V} {k : K}

lemma write_append (batch batch' : List (Write K V)) :
    db.write (batch ++ batch') = (db.write batch).write batch' :=
  List.foldl_append

variable (batches : List (List (Write K V)))

lemma writeAll_eq_write :
    db.writeAll batches = db.write batches.flatten :=
  List.foldl_flatten.symm

lemma writeAll_concat (batch : List (Write K V)) :
    db.writeAll (batches ++ [batch]) = (db.writeAll batches).write batch := by
  unfold writeAll
  rw [List.foldl_append]
  rfl

variable {batch : List (Write K V)}

lemma write_of_ne (h : ∀ w ∈ batch, w.key ≠ k) : db.write batch k = db k := by
  induction batch generalizing db with
  | nil => rfl
  | cons w batch ih =>
    have hrest := @ih (db.put w) fun w' hw' => h w' (List.mem_cons_of_mem _ hw')
    exact hrest.trans (if_neg (h w (List.mem_cons_self ..)))

/-- A key that some write concerns holds what all of those agree on. -/
lemma write_of_agree {v : Option V} (hsome : ∃ w ∈ batch, w.key = k)
    (hagree : ∀ w ∈ batch, w.key = k → w.value = v) :
    db.write batch k = v := by
  induction batch using List.reverseRecOn with
  | nil =>
    obtain ⟨w, hw, -⟩ := hsome
    cases hw
  | append_singleton batch w ih =>
    rw [write_append]
    by_cases hkey : w.key = k
    · have hv := hagree w (List.mem_append_right _ (List.mem_singleton_self w)) hkey
      exact (if_pos hkey).trans hv
    have hlast : ∀ w' ∈ [w], w'.key ≠ k := by
      intro w' hw'
      rw [List.mem_singleton.mp hw']
      exact hkey
    rw [write_of_ne hlast]
    refine ih ?_ fun w' hw' => hagree w' (List.mem_append_left _ hw')
    obtain ⟨w', hw', hk⟩ := hsome
    rcases List.mem_append.mp hw' with hw' | hw'
    · exact ⟨w', hw', hk⟩
    exact absurd hk (hlast w' hw')

end Database

end HetuEngine.Lib
