/-
Many senders, one channel.

Each sender has a queue of messages that it puts on the channel in order;
the receiver takes messages from the channel and does not know whose comes
next. `FanIn queues reads` says that the receiver may see `reads`, each
message with the sender it is from: the next message is always the next one
of some queue, and nothing says that the queues are read to their ends.

# What a receiver can rely on

- A message read is a message of its sender's queue (`FanIn.mem`), and if
  every queue has at most one message of a kind, no sender is seen twice
  with it (`FanIn.senders_nodup`).
- If no message read is of some kind, then of each queue only messages in
  front of the first such one were read (`FanIn.mem_front`,
  `FanIn.length_le`).

# What the channel may do

Any part of the queues can be what is read: a start of a queue first
(`FanIn.of_append`), then starts of the others (`fanIn_fronts`), and the
receiver may stop anywhere (`FanIn.take`).
-/
import Mathlib.Algebra.BigOperators.Group.Finset.Piecewise
import Mathlib.Data.List.TakeWhile

namespace HetuEngine.Lib

open Function

variable {ι α : Type} [DecidableEq ι]

/-- What a receiver may read from a channel into which each sender puts the
messages of its queue in order. -/
inductive FanIn : (ι → List α) → List (ι × α) → Prop where
  | nil {queues : ι → List α} : FanIn queues []
  | cons {queues : ι → List α} {reads : List (ι × α)} (i : ι) (m : α) (rest : List α)
      (hfront : queues i = m :: rest) (hreads : FanIn (Function.update queues i rest) reads) :
      FanIn queues ((i, m) :: reads)

variable {queues : ι → List α} {reads : List (ι × α)}

-- ==== what the receiver relies on

section

variable (h : FanIn queues reads)

include h

/-- If every message read is of a kind, then every one of them is in front of
the first message of its queue that is not. -/
lemma FanIn.mem_front (p : ι → α → Bool)
    (hkind : ∀ x ∈ reads, p x.1 x.2 = true) {i : ι} {m : α}
    (hm : (i, m) ∈ reads) : m ∈ (queues i).takeWhile (p i) := by
  induction h with
  | nil => cases hm
  | @cons queues reads j first rest hfront hreads ih =>
    have hfirst : p j first = true := hkind _ (List.mem_cons_self ..)
    rcases List.mem_cons.mp hm with heq | hm
    · obtain ⟨rfl, rfl⟩ := Prod.mk.inj heq
      rw [hfront, List.takeWhile_cons_of_pos hfirst]
      exact List.mem_cons_self ..
    have hmem := ih (fun x hx => hkind x (List.mem_cons_of_mem _ hx)) hm
    by_cases hij : i = j
    · rw [hij, update_self] at hmem
      rw [hij, hfront, List.takeWhile_cons_of_pos hfirst]
      exact List.mem_cons_of_mem _ hmem
    rwa [update_of_ne hij] at hmem

lemma FanIn.mem {i : ι} {m : α} (hm : (i, m) ∈ reads) : m ∈ queues i :=
  List.takeWhile_subset _ (h.mem_front (fun _ _ => true) (fun _ _ => rfl) hm)

/-- Where each queue has at most one message of a kind, no two messages of
that kind are read from one sender. -/
lemma FanIn.senders_nodup (p : α → Bool)
    (hone : ∀ i, ((queues i).filter p).length ≤ 1) :
    ((reads.filter fun x => p x.2).map Prod.fst).Nodup := by
  induction h with
  | nil => exact List.nodup_nil
  | @cons queues reads i m rest hfront hreads ih =>
    have hone' : ∀ j, ((update queues i rest j).filter p).length ≤ 1 := by
      intro j
      by_cases hij : j = i
      · have hi := hone i
        rw [hfront, List.filter_cons] at hi
        rw [hij, update_self]
        split at hi
        · rw [List.length_cons] at hi
          omega
        exact hi
      rw [update_of_ne hij]
      exact hone j
    rw [List.filter_cons]
    split
    next hp =>
      refine List.nodup_cons.mpr ⟨fun hmem => ?_, ih hone'⟩
      obtain ⟨⟨j, m'⟩, hm', hji⟩ := List.mem_map.mp hmem
      obtain ⟨hm', hp'⟩ := List.mem_filter.mp hm'
      obtain rfl : j = i := hji
      -- the queue of this sender would hold two messages of the kind
      have hrest := hreads.mem hm'
      rw [update_self] at hrest
      have hi := hone j
      rw [hfront, List.filter_cons_of_pos hp, List.length_cons] at hi
      have hpos := List.length_pos_of_mem (List.mem_filter.mpr ⟨hrest, hp'⟩)
      omega
    next => exact ih hone'

/-- If every message read is of a kind, then no more messages were read than
the queues have at their fronts. -/
lemma FanIn.length_le (p : ι → α → Bool) (senders : Finset ι)
    (hkind : ∀ x ∈ reads, p x.1 x.2 = true)
    (hsenders : ∀ i, i ∉ senders → queues i = []) :
    reads.length ≤ ∑ i ∈ senders, ((queues i).takeWhile (p i)).length := by
  induction h with
  | nil => exact Nat.zero_le _
  | @cons queues reads i m rest hfront hreads ih =>
    have hi : i ∈ senders := by
      by_contra hni
      rw [hsenders i hni] at hfront
      cases hfront
    have hm : p i m = true := hkind _ (List.mem_cons_self ..)
    have hrest := ih (fun x hx => hkind x (List.mem_cons_of_mem _ hx)) (by
        intro j hj
        have hne : j ≠ i := fun h => hj (h ▸ hi)
        rw [update_of_ne hne]
        exact hsenders j hj)
    rw [← Finset.add_sum_erase senders _ hi] at hrest ⊢
    rw [update_self] at hrest
    have hothers : ∑ j ∈ senders.erase i, ((update queues i rest j).takeWhile (p j)).length
          = ∑ j ∈ senders.erase i, ((queues j).takeWhile (p j)).length := by
      refine Finset.sum_congr rfl fun j hj => ?_
      rw [update_of_ne (Finset.ne_of_mem_erase hj)]
    rw [hfront, List.takeWhile_cons_of_pos hm, List.length_cons, List.length_cons]
    omega

-- ==== what the channel may do

lemma FanIn.take (k : Nat) : FanIn queues (reads.take k) := by
  induction h generalizing k with
  | nil => rw [List.take_nil]; exact .nil
  | @cons queues reads i m rest hfront hreads ih =>
    cases k with
    | zero => exact .nil
    | succ k => exact .cons i m rest hfront (ih k)

end

/-- One sender may be read first, as far as one likes. -/
lemma FanIn.of_append (i : ι) (front rest : List α)
    (hqueue : queues i = front ++ rest)
    (h : FanIn (Function.update queues i rest) reads) :
    FanIn queues (front.map (fun m => (i, m)) ++ reads) := by
  induction front generalizing queues with
  | nil =>
    have hsame : update queues i rest = queues := by
      rw [← List.nil_append rest, ← hqueue]
      exact update_eq_self i queues
    rwa [hsame] at h
  | cons m front ih =>
    refine .cons i m (front ++ rest) hqueue (ih ?_ ?_)
    · exact update_self ..
    rwa [update_idem]

/-- The fronts of several queues, sender by sender. -/
def fronts (p : ι → α → Bool) (queues : ι → List α) (senders : List ι) : List (ι × α) :=
  senders.flatMap fun i => ((queues i).takeWhile (p i)).map fun m => (i, m)

lemma fanIn_fronts (p : ι → α → Bool) (queues : ι → List α)
    (senders : List ι) (hnodup : senders.Nodup) :
    FanIn queues (fronts p queues senders) := by
  induction senders generalizing queues with
  | nil => exact .nil
  | cons i senders ih =>
    obtain ⟨hi, hnodup⟩ := List.nodup_cons.mp hnodup
    have hothers : fronts p queues senders = fronts p (update queues i ((queues i).dropWhile (p i)))
            senders := by
      refine List.flatMap_congr fun j hj => ?_
      have hne : j ≠ i := fun h => hi (h ▸ hj)
      rw [update_of_ne hne]
    rw [fronts, List.flatMap_cons, ← fronts, hothers]
    exact FanIn.of_append i _ _ List.takeWhile_append_dropWhile.symm (ih _ hnodup)

omit [DecidableEq ι] in
lemma kind_of_mem_fronts {p : ι → α → Bool} {senders : List ι} {x : ι × α}
    (hx : x ∈ fronts p queues senders) : p x.1 x.2 = true := by
  obtain ⟨i, -, hx⟩ := List.mem_flatMap.mp hx
  obtain ⟨m, hm, rfl⟩ := List.mem_map.mp hx
  exact List.mem_takeWhile_imp hm

lemma length_fronts (p : ι → α → Bool) (queues : ι → List α)
    (senders : List ι) (hnodup : senders.Nodup) :
    (fronts p queues senders).length = ∑ i
      ∈ senders.toFinset, ((queues i).takeWhile (p i)).length := by
  rw [fronts, List.length_flatMap, List.sum_toFinset _ hnodup]
  refine congrArg List.sum (List.map_congr_left fun i _ => ?_)
  rw [List.length_map]

end HetuEngine.Lib
