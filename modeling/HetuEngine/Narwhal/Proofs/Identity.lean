/-
What the digest of a header (primary/src/messages.rs) binds.

`Header::digest` hashes the author, the round, the payload entries and the
parents, one after the other. The first two have a fixed width, a payload
entry has 36 bytes and a parent 32, and nothing says how many there are of
either. So the bytes determine the header once the number of payload entries
is known (`header_identity_iff`); but eight payload entries are as long as
nine parents, and the same 288 bytes can be read as either (`Reread`), both
times in increasing order.
-/
import HetuEngine.Narwhal.Messages

namespace HetuEngine.Narwhal

open Lib List

-- ==== fixed widths

@[simp] lemma length_leBytes (w n : Nat) : (leBytes w n).length = w := by
  induction w generalizing n with
  | zero => rfl
  | succ w ih => simp [leBytes, ih]

lemma leBytes_inj {w n m : Nat} (hn : n < 256 ^ w) (hm : m < 256 ^ w)
    (h : leBytes w n = leBytes w m) : n = m := by
  induction w generalizing n m with
  | zero =>
    rw [pow_zero] at hn hm
    omega
  | succ w ih =>
    unfold leBytes at h
    rw [cons.injEq] at h
    rw [pow_succ] at hn hm
    have hlow := congrArg UInt8.toNat h.1
    rw [UInt8.toNat_ofNat', UInt8.toNat_ofNat'] at hlow
    have hhigh := ih (n := n / 256) (m := m / 256) (by omega) (by omega) h.2
    omega

@[simp] lemma Bytes32.length_bytes (d : Bytes32) : d.bytes.length = 32 := by
  simp [bytes]

lemma Bytes32.bytes_inj {d d' : Bytes32} (h : d.bytes = d'.bytes) : d = d' :=
  Fin.ext (leBytes_inj d.isLt d'.isLt (reverse_injective h))

section Chunks

variable {α β : Type} {f : α → List β} {w : Nat}

lemma length_chunks (hw : ∀ a, (f a).length = w) (l : List α) :
    (l.flatMap f).length = w * l.length := by
  simp [length_flatMap, hw, Nat.mul_comm]

/-- As many chunks of one width can be told apart if single ones can. -/
lemma chunks_inj (hw : ∀ a, (f a).length = w) {l l' : List α}
    (hinj : ∀ a ∈ l, ∀ b ∈ l', f a = f b → a = b)
    (hlen : l.length = l'.length) (h : l.flatMap f = l'.flatMap f) :
    l = l' := by
  induction l generalizing l' with
  | nil => exact (eq_nil_of_length_eq_zero hlen.symm).symm
  | cons a l ih =>
    cases l' with
    | nil => cases hlen
    | cons b l' =>
      rw [flatMap_cons, flatMap_cons] at h
      obtain ⟨hhead, htail⟩ := append_inj h ((hw a).trans (hw b).symm)
      have hab := hinj a mem_cons_self b mem_cons_self hhead
      rw [hab, ih (fun x hx y hy => hinj x (mem_cons_of_mem _ hx) y
        (mem_cons_of_mem _ hy)) (Nat.succ.inj hlen) htail]

end Chunks

-- ==== headers

namespace Header

def content (h : Header) : PublicKey × Nat × BTreeMap Digest Nat × BTreeSet Digest :=
  (h.author, h.round, h.payload, h.parents)

def WorkerIds (h : Header) : Prop := ∀ e ∈ h.payload.entries, e.2 < 2 ^ 32

lemma length_entry (e : Digest × Nat) :
    (e.1.bytes ++ leBytes 4 e.2).length = 36 := by
  simp

/-- Equal bytes are of one header, if they have as many payload entries. -/
lemma content_eq {h h' : Header} (hids : h.WorkerIds) (hids' : h'.WorkerIds)
    (hbytes : h.hashed = h'.hashed)
    (hcount : h.payload.entries.length = h'.payload.entries.length) :
    h.content = h'.content := by
  unfold hashed at hbytes
  have hentries := length_chunks length_entry
  obtain ⟨hfront, hparents⟩ := append_inj hbytes (by
    simp only [length_append, hentries, hcount, length_leBytes, Bytes32.length_bytes])
  obtain ⟨hfixed, hpayload⟩ := append_inj hfront (by simp)
  obtain ⟨hauthor, hround⟩ := append_inj hfixed (by simp)
  have hpayload : h.payload = h'.payload := by
    have heq := chunks_inj length_entry (fun e he e' he' heq => by
      obtain ⟨hdigest, hid⟩ := append_inj heq (by simp)
      exact Prod.ext (Bytes32.bytes_inj hdigest)
        (leBytes_inj (hids e he) (hids' e' he') hid)) hcount hpayload
    cases hp : h.payload
    cases hp' : h'.payload
    rw [hp, hp'] at heq
    cases heq
    rfl
  have hparents : h.parents = h'.parents := by
    have hlength := congrArg length hparents
    rw [length_chunks Bytes32.length_bytes, length_chunks Bytes32.length_bytes] at hlength
    have heq := chunks_inj Bytes32.length_bytes
      (fun _ _ _ _ => Bytes32.bytes_inj) (by omega) hparents
    cases hp : h.parents
    cases hp' : h'.parents
    rw [hp, hp'] at heq
    cases heq
    rfl
  unfold content
  rw [Bytes32.bytes_inj hauthor, leBytes_inj h.round_lt h'.round_lt hround, hpayload, hparents]

end Header

/-- Two headers that hash the same bytes have the same author, round, payload
and parents exactly if they have as many payload entries. -/
theorem header_identity_iff (h h' : Header) (hids : h.WorkerIds)
    (hids' : h'.WorkerIds) (hbytes : h.hashed = h'.hashed) :
    h.content = h'.content
      ↔ h.payload.entries.length = h'.payload.entries.length := by
  constructor
  · intro hcontent
    have hpayload : h.payload = h'.payload := congrArg (·.2.2.1) hcontent
    rw [hpayload]
  exact Header.content_eq hids hids' hbytes

namespace Reread

/-- Eight words of four bytes, the first byte of each counted up. -/
def words (t : Nat) : Digest :=
  Fin.ofNat _ ((List.range 8).foldl (fun n i => n * 2 ^ 32 + (t + i) * 2 ^ 24) 0)

/-- The 72 words as eight payload entries. -/
def entries : BTreeMap Digest Nat where
  entries := (List.range 8).map fun j => (words (9 * j), 9 * j + 8)
  sorted := by decide +kernel

/-- The 72 words as nine parents. -/
def parents : BTreeSet Digest where
  toList := (List.range 9).map fun i => words (8 * i)
  sorted := by decide +kernel

def crypto : Crypto where
  sha512 bytes := Fin.ofNat _ bytes.length
  sign _ _ := 0
  verify signature _ _ := signature = 0
  verifyBatch _ votes := votes.all fun v => v.2 = 0

def committee : Committee where
  authorities := ⟨[(0, ⟨1, entries.values, unit_stake_lt⟩)], by simp⟩

/-- The header with the payload, and the one with the parents. -/
def loaded : Header := .new crypto 0 1 entries BTreeSet.empty

def childless : Header := .new crypto 0 1 BTreeMap.empty parents

/-- A header with both, which is hashed without its id. -/
def full (id : Digest) : Header := { Header.new crypto 0 1 entries parents with id := id }

end Reread

open Reread in
theorem header_identity_id : (full 0).hashed = (full 1).hashed
    ∧ (full 0).content = (full 1).content := by
  have hids : ∀ id, (full id).WorkerIds := fun id => by
    show ∀ e ∈ entries.entries, e.2 < 2 ^ 32
    decide +kernel
  exact ⟨rfl, (header_identity_iff _ _ (hids 0) (hids 1) rfl).mpr rfl⟩

open Reread in
/-- Both headers pass `Header::verify`, with one id and one signature: a vote
for either is a vote for the other. -/
theorem header_identity_fails : loaded.hashed = childless.hashed
    ∧ loaded.verify crypto committee = .ok ()
    ∧ childless.verify crypto committee = .ok ()
    ∧ (loaded.id, loaded.signature) = (childless.id, childless.signature)
    ∧ loaded.content ≠ childless.content := by
  decide +kernel

end HetuEngine.Narwhal
