/-
What one event can do to the relay, said once.

`Moves` lists the changes: fifteen kinds, each with what the step checked
before it made the change. `step_moves` reads them off `step`; everything
proved about runs of the relay goes through it. The steps of a client's own
tasks that leave its accepted frames alone are one kind, `client`, and the
two that remove it from the map are another, `leave`.

The first consequence is `Wired`: an address in the map leads to a client
with that address whose channel is open, and the handler only sends to
clients in the map. So the send of the handler never fails.
-/
import HetuEngine.Relay.Basic

namespace HetuEngine.Relay

open Lib State Client AList

variable {codec : Codec} {s s' : State} {e : Event} {k : Nat}

-- ==== frames of a client

def Client.lost (c : Client) : List Frame :=
  match c.writer with
  | .running => []
  | .leaving lost => lost.toList
  | .ended lost => lost.toList

/-- The frames that were put in the channel of a client. -/
def Client.accepted (c : Client) : List Frame := c.written ++ c.lost ++ c.queue

/-- The frames a client has been sent or is about to be sent: those in its
socket and those in its channel. -/
def Client.received (c : Client) : List Frame := c.written ++ c.queue

variable {c : Client}

lemma Client.received_of_running (h : c.writer = .running) :
    c.received = c.accepted := by
  unfold received accepted lost
  rw [h, List.append_nil]

def Client.running (c : Client) : Bool :=
  match c.writer with
  | .running => true
  | _ => false

/-- A change of a client that keeps its address and its frames. -/
structure Kept (c c' : Client) : Prop where
  addr : c'.addr = c.addr
  accepted : c'.accepted = c.accepted

namespace State

/-- The frames put in the channel of client `k`. -/
def accepted (s : State) (k : Nat) : List Frame := (s.clients[k]?).elim [] Client.accepted

/-- The frames written to client `k` or waiting in its channel. -/
def received (s : State) (k : Nat) : List Frame := (s.clients[k]?).elim [] Client.received

lemma mem_targets :
    k ∈ s.targets ↔ ∃ a, s.activeConnections.lookup a = some k := by
  unfold targets
  rw [List.mem_toFinset, HashMap.mem_values]

lemma targets_eq_empty (h : s.connCount = 0) : s.targets = ∅ := by
  unfold targets HashMap.values
  rw [List.length_eq_zero_iff.mp h]
  rfl

lemma getElem?_updateClient (s : State) (k j : Nat) (f : Client → Client) :
    (s.updateClient k f).clients[j]? = if k = j then (s.clients[j]?).map f else s.clients[j]? := by
  unfold updateClient
  by_cases h : k = j
  · simp [h]
  simp [h]

variable {f : Client → Client}

lemma accepted_updateClient_ne {j : Nat}
    (h : j ≠ k) : (s.updateClient k f).accepted j = s.accepted j := by
  unfold accepted
  rw [getElem?_updateClient, if_neg (Ne.symm h)]

lemma accepted_updateClient_self (hc : s.clients[k]? = some c) :
    (s.updateClient k f).accepted k = (f c).accepted := by
  unfold accepted
  rw [getElem?_updateClient, if_pos rfl, hc]
  rfl

lemma accepted_updateClient_kept (hc : s.clients[k]? = some c)
    (hf : Kept c (f c)) (j : Nat) :
    (s.updateClient k f).accepted j = s.accepted j := by
  by_cases h : j = k
  · subst h
    rw [accepted_updateClient_self hc, hf.accepted]
    unfold accepted
    rw [hc]
    rfl
  exact accepted_updateClient_ne h

end State

-- ==== moves

inductive Moves (codec : Codec) (s : State) : State → Prop
  | none : Moves codec s s
  | processor (p : Processor) : Moves codec s { s with processor := p }
  | send (transactions : List Bytes) (todo : List (Narwhal.Digest × Nat)) :
      Moves codec s ((s.send transactions).goOn todo)
  | receive {batch : Batch} {batches : List Batch} (hidle : s.broadcaster = .idle)
      (hrx : s.rxTransactions = batch :: batches) : Moves codec s { s with
        broadcaster := .encoded (codec.frame batch)
        rxTransactions := batches }
  | count {frame : Frame} (hb : s.broadcaster = .encoded frame) :
      Moves codec s { s with broadcaster := .sampled frame s.connCount }
  | drop {frame : Frame} (hb : s.broadcaster = .encoded frame) (hnone : s.connCount = 0) :
      Moves codec s { s with broadcaster := .idle }
  | forward {frame : Frame} {n : Nat} (hb : s.broadcaster = .sampled frame n) :
      Moves codec s { s with broadcaster := .idle, rxBroadcast := s.rxBroadcast ++ [(frame, n)] }
  | take {frame : Frame} {n : Nat} {rest : List (Frame × Nat)} (hidle : s.handler = .idle)
      (hrx : s.rxBroadcast = (frame, n) :: rest) : Moves codec s { s with
        handler := .waiting frame n
        rxBroadcast := rest }
  | check {frame : Frame} {n : Nat} (hh : s.handler = .waiting frame n) :
      Moves codec s (s.runCheck frame n)
  | deliver {frame : Frame}
      {rest : Finset Nat} {k : Nat} {c : Client} (hh : s.handler = .sending frame rest)
      (hk : k ∈ rest) (hc : s.clients[k]? = some c) (hopen : c.ended = false) : Moves codec s
        { s.updateClient k (Client.push frame) with handler := .sending frame (rest.erase k) }
  | refuse {frame : Frame} {rest : Finset Nat} {k : Nat} {c : Client}
      (hh : s.handler = .sending frame rest) (hk : k ∈ rest)
      (hc : s.clients[k]? = some c) (hgone : c.ended = true) :
      Moves codec s { s with handler := .sending frame (rest.erase k) }
  | release {frame : Frame} (hh : s.handler = .sending frame ∅) :
      Moves codec s { s with handler := .idle }
  | accept (addr : SocketAddr) (hfree : s.locked = false) : Moves codec s { s with
        activeConnections := s.activeConnections.insert addr s.clients.length
        clients := s.clients ++ [Client.new addr] }
  | client {k : Nat} {c : Client} {f : Client → Client} (hc : s.clients[k]? = some c)
      (hf : Kept c (f c)) (hend : (f c).ended = false ∨ (f c).ended = c.ended) :
      Moves codec s (s.updateClient k f)
  | leave {k : Nat} {c : Client} {f : Client → Client}
      (hfree : s.locked = false) (hc : s.clients[k]? = some c) (hf : Kept c (f c)) :
      Moves codec s ((s.remove c.addr).updateClient k f)

namespace State

lemma runDeliver_moves {frame : Frame} {rest : Finset Nat}
    (hh : s.handler = .sending frame rest) (hk : k ∈ rest) :
    Moves codec s (s.runDeliver frame rest k) := by
  unfold runDeliver
  split
  · exact .none
  next c hc =>
  split
  · next hend => exact .refuse hh hk hc hend
  next hend =>
  split
  · exact .deliver hh hk hc (by simpa using hend)
  exact .none

lemma runWrite_moves (k : Nat) (ok : Bool) :
    Moves codec s (s.runWrite k ok) := by
  unfold runWrite
  split
  · next addr frame queue written reading hc =>
    cases ok with
    | true | false => exact .client hc ⟨rfl, by simp [Client.accepted, Client.lost]⟩ (.inl rfl)
  exact .none

lemma step_moves (codec : Codec) (s : State) (e : Event) :
    Moves codec s (s.step codec e) := by
  cases e with
  | certificate certificate =>
    simp only [step]
    split
    · exact .processor _
    exact .none
  | fetch db =>
    simp only [step]
    split
    · exact .none
    split
    · exact .processor _
    · exact .processor _
    split
    · exact .send _ _
    exact .none
  | receive =>
    simp only [step]
    split
    · next hidle hrx => exact .receive hidle hrx
    exact .none
  | sample =>
    simp only [step]
    split
    · next hb =>
      split
      · exact .none
      split
      · exact .count hb
      exact .drop hb (by omega)
    exact .none
  | forward =>
    simp only [step]
    split
    · next hb =>
      split
      · exact .forward hb
      exact .none
    exact .none
  | take =>
    simp only [step]
    split
    · next hidle hrx => exact .take hidle hrx
    exact .none
  | check =>
    simp only [step]
    split
    · next hh => exact .check hh
    exact .none
  | deliver k =>
    simp only [step]
    split
    · next hh =>
      split
      · next hk => exact runDeliver_moves hh hk
      exact .none
    exact .none
  | release =>
    simp only [step]
    split
    · next hh =>
      split
      · next hrest => exact .release (hrest ▸ hh)
      exact .none
    exact .none
  | accept addr =>
    simp only [step]
    split
    · exact .none
    next hfree => exact .accept addr (by simpa using hfree)
  | write k ok => exact runWrite_moves k ok
  | finish k =>
    simp only [step]
    split
    · next hc =>
      split
      · exact .none
      exact .client hc ⟨rfl, rfl⟩ (.inl rfl)
    exact .none
  | removeWriter k | removeReader k =>
    simp only [step]
    split
    · next hc =>
      split
      · exact .none
      next hfree => exact .leave (by simpa using hfree) hc ⟨rfl, rfl⟩
    exact .none

end State

-- ==== wired

/-- The map leads to open channels, and the handler sends to clients in the
map. -/
structure Wired (s : State) : Prop where
  client : ∀ a k, s.activeConnections.lookup a = some k →
    ∃ c, s.clients[k]? = some c ∧ c.addr = a ∧ c.ended = false
  rest : ∀ frame rest, s.handler = .sending frame rest → rest ⊆ s.targets

lemma wired_init : Wired State.init := by
  refine ⟨fun a k h => ?_, fun _ _ h => ?_⟩
  · rw [show init.activeConnections = ∅ from rfl] at h
    cases h
  cases h

/-- A step that touches neither the map nor the clients. -/
lemma Wired.congr (hw : Wired s) (hmap : s'.activeConnections = s.activeConnections)
    (hcl : s'.clients = s.clients) (hrest : ∀ frame rest, s'.handler = .sending frame rest →
    rest ⊆ s.targets) : Wired s' := by
  refine ⟨fun a k h => ?_, fun frame rest h => ?_⟩
  · rw [hcl]
    rw [hmap] at h
    exact hw.client a k h
  unfold targets
  rw [hmap]
  exact hrest frame rest h

lemma not_sending_of_unlocked (h : s.locked = false) (frame : Frame)
    (rest : Finset Nat) : s.handler ≠ .sending frame rest := by
  intro hh
  unfold locked at h
  rw [hh] at h
  cases h

/-- Changing a client in the map is harmless as long as its address stays
and its channel is not closed. -/
lemma Wired.updateClient (hw : Wired s) {f : Client → Client}
    (hc : s.clients[k]? = some c) (haddr : (f c).addr = c.addr)
    (hend : (f c).ended = false ∨ (f c).ended = c.ended) :
    Wired (s.updateClient k f) := by
  refine ⟨fun a j h => ?_, hw.rest⟩
  obtain ⟨d, hd, ha, ho⟩ := hw.client a j h
  rw [getElem?_updateClient]
  by_cases hk : k = j
  · subst hk
    cases hc.symm.trans hd
    refine ⟨f c, by rw [if_pos rfl, hc]; rfl, haddr.trans ha, ?_⟩
    rcases hend with hend | hend
    · exact hend
    rw [hend, ho]
  exact ⟨d, by rw [if_neg hk, hd], ha, ho⟩

lemma Wired.accept (hw : Wired s) (addr : SocketAddr) (hfree : s.locked = false) : Wired { s with
      activeConnections := s.activeConnections.insert addr s.clients.length
      clients := s.clients ++ [new addr] } := by
  refine ⟨fun a j h => ?_, fun frame rest h => ?_⟩
  · by_cases ha : a = addr
    · subst ha
      rw [lookup_insert] at h
      cases h
      exact ⟨new a, List.getElem?_concat_length, rfl, rfl⟩
    rw [lookup_insert_ne ha] at h
    obtain ⟨d, hd, had, ho⟩ := hw.client a j h
    have hlt : j < s.clients.length := (List.getElem?_eq_some_iff.mp hd).1
    exact ⟨d, by rw [List.getElem?_append_left hlt, hd], had, ho⟩
  exact absurd h (not_sending_of_unlocked hfree frame rest)

/-- A client that leaves takes its address with it, so its closed channel is
not in the map. -/
lemma Wired.leave (hw : Wired s) {f : Client → Client}
    (hfree : s.locked = false) (hc : s.clients[k]? = some c) :
    Wired ((s.remove c.addr).updateClient k f) := by
  refine ⟨fun a j h => ?_, fun frame rest h => ?_⟩
  · have h : (s.activeConnections.erase c.addr).lookup a = some j := h
    by_cases ha : a = c.addr
    · subst ha
      rw [lookup_erase] at h
      cases h
    rw [lookup_erase_ne ha] at h
    obtain ⟨d, hd, had, ho⟩ := hw.client a j h
    have hk : k ≠ j := by
      intro hk
      subst hk
      cases hc.symm.trans hd
      exact ha had.symm
    refine ⟨d, ?_, had, ho⟩
    rw [getElem?_updateClient, if_neg hk]
    exact hd
  exact absurd h (not_sending_of_unlocked hfree frame rest)

lemma Moves.wired (hm : Moves codec s s') (hw : Wired s) : Wired s' := by
  cases hm with
  | none => exact hw
  | processor | send | receive | count | drop
  | forward => exact hw.congr rfl rfl hw.rest
  | take => exact hw.congr rfl rfl fun _ _ h => by cases h
  | check hh =>
    refine hw.congr rfl rfl fun frame rest h => ?_
    simp only [runCheck] at h
    split at h
    · cases h
    cases h
    exact Finset.Subset.refl _
  | @deliver frame rest k c hh hk hc hopen =>
    have hw' : Wired (s.updateClient k (push frame)) := hw.updateClient hc rfl (.inl hopen)
    refine hw'.congr rfl rfl fun _ _ h => ?_
    cases h
    exact (Finset.erase_subset _ _).trans (hw.rest _ _ hh)
  | refuse hh =>
    refine hw.congr rfl rfl fun _ _ h => ?_
    cases h
    exact (Finset.erase_subset _ _).trans (hw.rest _ _ hh)
  | release => exact hw.congr rfl rfl fun _ _ h => by cases h
  | accept addr hfree => exact hw.accept addr hfree
  | client hc hf hend => exact hw.updateClient hc hf.addr hend
  | leave hfree hc hf => exact hw.leave hfree hc

lemma run_wired (codec : Codec) (es : List Event) :
    Wired (State.run codec es) := by
  induction es using List.reverseRecOn with
  | nil => exact wired_init
  | append_singleton es e ih =>
    rw [run_concat]
    exact (step_moves codec _ e).wired ih

/-- A client that still has to get the frame has an open channel: the send
of the handler does not fail. -/
lemma Wired.open_of_rest (hw : Wired s) {frame : Frame}
    {rest : Finset Nat} (hh : s.handler = .sending frame rest)
    (hk : k ∈ rest) (hc : s.clients[k]? = some c) :
    c.ended = false := by
  obtain ⟨a, ha⟩ := mem_targets.mp (hw.rest _ _ hh hk)
  obtain ⟨d, hd, -, ho⟩ := hw.client a k ha
  cases hc.symm.trans hd
  exact ho

end HetuEngine.Relay
