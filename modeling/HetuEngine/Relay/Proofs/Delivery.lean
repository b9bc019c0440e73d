/-
Which batches reach a client.

# Two lines

The batches that have not come to the handler's check stand in one line,
through the two channels and the two tasks. Together with the frames that
were checked they are a subsequence of the batches sent (`Line`): a batch
moves forward, or it is dropped because nobody is connected.

What a client was sent is the other line: the frames put in its channel,
with the frame the handler still holds for it, are exactly those whose
check passed with the client in the map (`Served`). So the order is that of
sending, and no frame comes twice.

# Exactly once

A batch whose client is in the map as long as the batch is pending is not
dropped, and its check finds the client in the map. It reaches the client
exactly once if the number of connections is still the one the broadcaster
counted. When another client came or went in between, the handler skips the
batch and nobody gets it (`committed_batches_delivered_fails`).
-/
import HetuEngine.Relay.Proofs.Moves

namespace HetuEngine.Relay

open Lib State Handler Duo Broadcaster Relay.Frame Check

variable {codec : Codec} {s s' : State} {k n : Nat}

-- ==== the line

def Handler.waitingFrame : Handler → List Frame
  | .waiting frame _ => [frame]
  | _ => []

def Handler.sendingFrame : Handler → List Frame
  | .sending frame _ => [frame]
  | _ => []

def Broadcaster.frames : Broadcaster → List Frame
  | .idle => []
  | .encoded frame => [frame]
  | .sampled frame _ => [frame]

namespace State

/-- The frames on their way to the check of the handler, the oldest
first. -/
def line (codec : Codec) (s : State) : List Frame :=
  s.handler.waitingFrame ++ s.rxBroadcast.map Prod.fst
    ++ s.broadcaster.frames ++ s.rxTransactions.map codec.frame

/-- The frames that were checked, and those on their way there. -/
def track (codec : Codec) (s : State) : List Frame := s.checks.map Check.frame ++ s.line codec

/-- The positions of the batches that were sent and not yet broadcast,
skipped or dropped. -/
def pending (codec : Codec) (s : State) : List Nat :=
  (s.handler.sendingFrame ++ s.line codec).map Frame.index

end State

/-- What a step does to the line. -/
inductive Advance (codec : Codec) (s s' : State) : Prop
  | keep (hsent : s'.sent = s.sent) (htrack : s'.track codec = s.track codec)
  | send (batch : Batch) (hindex : batch.index = s.sent.length)
      (hsent : s'.sent = s.sent ++ [batch])
      (htrack : s'.track codec = s.track codec ++ [codec.frame batch])
  | drop (frame : Frame) (before after : List Frame)
      (hsent : s'.sent = s.sent) (htrack : s.track codec = before ++ frame :: after)
      (htrack' : s'.track codec = before ++ after)
      (hpending : frame.index ∈ s.pending codec) (hnone : s.connCount = 0)

/-- Frames only move forward; the broadcaster drops one when there is no
connection. -/
lemma Moves.advance (hm : Moves codec s s') : Advance codec s s' := by
  cases hm with
  | none | processor => exact .keep rfl rfl
  | send transactions todo =>
    refine .send ⟨s.sent.length, transactions, s.processor.round⟩ rfl rfl ?_
    simp [State.track, State.line, State.goOn, State.send]
  | receive hidle hrx =>
    refine .keep rfl ?_
    simp [State.track, State.line, hidle, hrx, frames]
  | count hb | forward hb =>
    refine .keep rfl ?_
    simp [State.track, State.line, hb, frames]
  | @drop frame hb hnone =>
    refine .drop frame (s.checks.map Check.frame ++ (s.handler.waitingFrame
        ++ s.rxBroadcast.map Prod.fst))
      (s.rxTransactions.map codec.frame) rfl ?_ ?_ ?_ hnone
    · simp [State.track, State.line, hb, frames]
    · simp [State.track, State.line, frames]
    simp [State.pending, State.line, hb, frames]
  | take hidle hrx =>
    refine .keep rfl ?_
    simp [State.track, State.line, hidle, hrx, waitingFrame]
  | check hh =>
    refine .keep rfl ?_
    simp only [State.track, State.line, State.runCheck, hh]
    split
    all_goals simp [waitingFrame]
  | deliver hh =>
    refine .keep rfl ?_
    simp [State.track, State.line, State.updateClient, hh, waitingFrame]
  | refuse hh | release hh =>
    refine .keep rfl ?_
    simp [State.track, State.line, hh, waitingFrame]
  | accept | client | leave => exact .keep rfl rfl

/-- The batches sent are numbered in order, and the line is a subsequence
of their frames. -/
structure Line (codec : Codec) (s : State) : Prop where
  numbered : s.sent.map Batch.index = List.range s.sent.length
  sublist : (s.track codec).Sublist (s.sent.map codec.frame)

lemma Advance.line (ha : Advance codec s s') (hl : Line codec s) :
    Line codec s' := by
  cases ha with
  | keep hsent htrack =>
    refine ⟨?_, ?_⟩
    · rw [hsent]
      exact hl.numbered
    rw [hsent, htrack]
    exact hl.sublist
  | send batch hindex hsent htrack =>
    refine ⟨?_, ?_⟩
    · rw [hsent, List.map_append, hl.numbered]
      simp [List.range_succ, hindex]
    rw [hsent, htrack, List.map_append]
    exact hl.sublist.append_right _
  | drop frame before after hsent htrack htrack' =>
    refine ⟨?_, ?_⟩
    · rw [hsent]
      exact hl.numbered
    rw [hsent, htrack']
    have hsub := hl.sublist
    rw [htrack] at hsub
    exact ((List.sublist_cons_self _ _).append_left _).trans hsub

lemma run_line (codec : Codec) (es : List Event) :
    Line codec (State.run codec es) := by
  induction es using List.reverseRecOn with
  | nil => exact ⟨rfl, List.Sublist.refl _⟩
  | append_singleton es e ih =>
    rw [run_concat]
    exact (step_moves codec _ e).advance.line ih

/-- The positions of frames in a subsequence of the line increase. -/
lemma Line.increasing (hl : Line codec s) {frames : List Frame}
    (h : frames.Sublist (s.sent.map codec.frame)) :
    (frames.map index).Pairwise (· < ·) := by
  have hsub := h.map index
  rw [List.map_map, show index ∘ codec.frame = Batch.index from rfl, hl.numbered] at hsub
  exact List.pairwise_lt_range.sublist hsub

-- ==== served clients

/-- Whether the check passed with client `k` in the map. -/
def Check.serves (k : Nat) (r : Check) : Bool := r.actual = r.expected ∧ k ∈ r.targets

/-- What the handler still holds for client `k`. -/
def Handler.holds (k : Nat) : Handler → List Frame
  | .sending frame rest => if k ∈ rest then [frame] else []
  | _ => []

lemma Handler.holds_sublist (k : Nat) (h : Handler) :
    (h.holds k).Sublist h.sendingFrame := by
  cases h with
  | idle | waiting frame m => exact List.Sublist.refl _
  | sending frame rest =>
    by_cases hk : k ∈ rest
    · simp [holds, sendingFrame, hk]
    simp [holds, hk]

/-- The frames of the checks that passed with client `k` in the map. -/
def State.promised (s : State) (k : Nat) : List Frame :=
  (s.checks.filter (Check.serves k)).map Check.frame

/-- A client got, or is about to get, exactly the promised frames. -/
def Served (k : Nat) (s : State) : Prop := s.accepted k ++ s.handler.holds k = s.promised k

/-- A step that changes neither the frames of the client nor the handler's
part in them. -/
lemma Served.congr (hs : Served k s) (hacc : s'.accepted k = s.accepted k)
    (hholds : s'.handler.holds k = s.handler.holds k)
    (hchecks : s'.checks = s.checks) : Served k s' := by
  unfold Served promised at hs ⊢
  rw [hacc, hholds, hchecks, hs]

variable {frame : Frame}

/-- The handler starts to hold a frame for the clients of a check that
passes. -/
lemma Served.check (hs : Served k s) {m : Nat}
    (hh : s.handler = .waiting frame m) : Served k (s.runCheck frame m) := by
  unfold Served at hs ⊢
  have hacc : s.accepted k = s.promised k := by
    rw [hh] at hs
    simpa [holds] using hs
  show s.accepted k ++ _ = _
  rw [hacc]
  unfold promised runCheck
  by_cases hcount : s.connCount = m
  · by_cases hk : k ∈ s.targets
    all_goals simp [hcount, hk, holds, serves]
  simp [hcount, holds, serves]

/-- One send of the handler moves the frame from its hand to the channel of
the client. -/
lemma Served.deliver (hs : Served k s) {rest : Finset Nat} {j : Nat} {c : Client}
    (hh : s.handler = .sending frame rest) (hj : j ∈ rest) (hc : s.clients[j]? = some c) :
    Served k { s.updateClient j (Client.push frame) with
    handler := .sending frame (rest.erase j) } := by
  show (s.updateClient j (Client.push frame)).accepted k ++ _ = s.promised k
  rw [← hs, hh]
  by_cases hk : k = j
  · subst hk
    rw [accepted_updateClient_self hc]
    unfold accepted
    rw [hc]
    simp [holds, hj, Client.push, Client.accepted, Client.lost]
  rw [accepted_updateClient_ne hk]
  simp [holds, hk]

lemma accepted_accept (s : State) (addr : SocketAddr) (k : Nat) : State.accepted { s with
      activeConnections := s.activeConnections.insert addr s.clients.length
      clients := s.clients ++ [Client.new addr] } k = s.accepted k := by
  unfold accepted
  rcases Nat.lt_trichotomy k s.clients.length with hk | hk | hk
  · rw [List.getElem?_append_left hk]
  · subst hk
    rw [List.getElem?_concat_length, List.getElem?_eq_none le_rfl]
    rfl
  rw [List.getElem?_eq_none (by simpa using Nat.succ_le_of_lt hk), List.getElem?_eq_none hk.le]

lemma Moves.served (hm : Moves codec s s') (hw : Wired s) (hs : Served k s) :
    Served k s' := by
  cases hm with
  | none => exact hs
  | processor | send | receive | count | drop
  | forward => exact hs.congr rfl rfl rfl
  | take hidle => exact hs.congr rfl (by rw [hidle]; rfl) rfl
  | check hh => exact hs.check hh
  | deliver hh hj hc => exact hs.deliver hh hj hc
  | refuse hh hj hc hgone =>
    have hopen := hw.open_of_rest hh hj hc
    rw [hopen] at hgone
    cases hgone
  | release hh =>
    refine hs.congr rfl ?_ rfl
    rw [hh]
    simp [holds]
  | accept addr => exact hs.congr (accepted_accept s addr k) rfl rfl
  | client hc hf => exact hs.congr (accepted_updateClient_kept hc hf k) rfl rfl
  | @leave j c f hfree hc hf =>
    exact hs.congr (accepted_updateClient_kept (s := s.remove c.addr) hc hf k) rfl rfl

lemma run_served (codec : Codec) (k : Nat) (es : List Event) :
    Served k (State.run codec es) := by
  induction es using List.reverseRecOn with
  | nil => rfl
  | append_singleton es e ih =>
    rw [run_concat]
    exact (step_moves codec _ e).served (run_wired codec es) ih

-- ==== staying clients

/-- Client `k` is in the map in every state of the run in which batch `n`
is pending. The batch is pending from the step that sends it on, and that
step leaves the map alone; so the client was in the map before it. -/
def Stays (codec : Codec) (k n : Nat) (es : List Event) : Prop :=
  ∀ before ∈ es.inits, n ∈ (State.run codec before).pending codec →
    k ∈ (State.run codec before).targets

instance (codec : Codec) (k n : Nat) (es : List Event) : Decidable (Stays codec k n es) :=
  inferInstanceAs (Decidable (∀ before ∈ es.inits, _ → _))

variable {es : List Event}

lemma Stays.of_concat {e : Event} (h : Stays codec k n (es ++ [e])) :
    Stays codec k n es := by
  intro before hb
  rw [List.mem_inits] at hb
  exact h before ((List.mem_inits _ _).mpr (hb.trans (List.prefix_append _ _)))

lemma Stays.now (h : Stays codec k n es)
    (hn : n ∈ (State.run codec es).pending codec) :
    k ∈ (State.run codec es).targets :=
  h es ((List.mem_inits _ _).mpr List.prefix_rfl) hn

/-- A batch that was sent was checked or is in line, unless it was dropped;
and it is not dropped while the client is in the map. -/
lemma Stays.mem_track (h : Stays codec k n es)
    (hn : n < (State.run codec es).sent.length) :
    n ∈ ((State.run codec es).track codec).map index := by
  induction es using List.reverseRecOn with
  | nil => exact absurd hn (Nat.not_lt_zero _)
  | append_singleton es e ih =>
    have ih := ih h.of_concat
    rw [run_concat] at hn ⊢
    cases (step_moves codec (run codec es) e).advance with
    | keep hsent htrack =>
      rw [hsent] at hn
      rw [htrack]
      exact ih hn
    | send batch hindex hsent htrack =>
      rw [htrack, List.map_append, List.mem_append]
      rw [hsent, List.length_append, List.length_singleton] at hn
      by_cases hlt : n < (run codec es).sent.length
      · exact .inl (ih hlt)
      right
      simp only [List.map_singleton, List.mem_singleton]
      show n = batch.index
      omega
    | drop frame before after hsent htrack htrack' hpending hnone =>
      rw [hsent] at hn
      have hmem := ih hn
      -- the dropped frame is another one: nobody is connected now
      have hne : n ≠ frame.index := by
        intro heq
        have hk := h.of_concat.now (heq ▸ hpending)
        rw [targets_eq_empty hnone] at hk
        exact absurd hk (Finset.notMem_empty k)
      rw [htrack, List.map_append, List.map_cons, List.mem_append, List.mem_cons] at hmem
      rw [htrack', List.map_append, List.mem_append]
      rcases hmem with hmem | hmem | hmem
      · exact .inl hmem
      · exact absurd hmem hne
      exact .inr hmem

/-- What a step adds to the checks: nothing, or what the handler finds. -/
lemma Moves.checks (hm : Moves codec s s') :
    s'.checks = s.checks ∨ ∃ frame m, s.handler = .waiting frame m
    ∧ s'.checks = s.checks ++ [⟨frame, m, s.connCount, s.targets⟩] := by
  cases hm with
  | check hh => exact .inr ⟨_, _, hh, rfl⟩
  | _ => exact .inl rfl

/-- The check of the batch found the client in the map. -/
lemma Stays.mem_targets (h : Stays codec k n es) :
    ∀ r ∈ (State.run codec es).checks, r.frame.index = n → k ∈ r.targets := by
  induction es using List.reverseRecOn with
  | nil => intro r hr; cases hr
  | append_singleton es e ih =>
    intro r hr hindex
    have ih := ih h.of_concat r
    rw [run_concat] at hr
    rcases (step_moves codec (run codec es) e).checks with
      hsame | ⟨frame, m, hh, hchecks⟩
    · rw [hsame] at hr
      exact ih hr hindex
    rw [hchecks, List.mem_append, List.mem_singleton] at hr
    rcases hr with hr | hr
    · exact ih hr hindex
    subst hr
    refine h.of_concat.now ?_
    unfold pending line
    rw [hh]
    simp [waitingFrame, sendingFrame, ← hindex]

-- ==== delivery

/-- Among elements with distinct values of `f`, the selected ones have the
value of `r` once if `r` is selected and never if it is not. -/
lemma count_map_filter {α : Type} {f : α → Nat} {p : α → Bool}
    {l : List α} (hnd : (l.map f).Nodup) {r : α} (hr : r ∈ l) :
    ((l.filter p).map f).count (f r) = if p r then 1 else 0 := by
  have hmem : f r ∈ (l.filter p).map f ↔ p r = true := by
    rw [List.mem_map]
    constructor
    · intro ⟨q, hq, hqr⟩
      rw [List.mem_filter] at hq
      rw [← List.inj_on_of_nodup_map hnd hq.1 hr hqr]
      exact hq.2
    intro hp
    exact ⟨r, List.mem_filter.mpr ⟨hr, hp⟩, rfl⟩
  rw [(hnd.sublist (List.filter_sublist.map f)).count, if_congr hmem rfl rfl]

lemma accepted_sublist_checks (codec : Codec) (k : Nat) (es : List Event) :
    ((State.run codec es).accepted k).Sublist
      ((State.run codec es).checks.map Check.frame) := by
  have hserved : _ = _ := run_served codec k es
  have hsub : ((run codec es).promised k).Sublist ((run codec es).checks.map frame) :=
    List.filter_sublist.map _
  rw [← hserved] at hsub
  exact (List.sublist_append_left _ _).trans hsub

lemma received_sublist_accepted (s : State) (k : Nat) :
    (s.received k).Sublist (s.accepted k) := by
  unfold received accepted
  cases s.clients[k]? with
  | none => exact List.Sublist.refl _
  | some c => exact (List.sublist_append_left ..).append_right _

/-- A batch that is no longer pending reached the client as its check
says. -/
lemma accepted_count (codec : Codec) (k : Nat) (es : List Event)
    {r : Check} (hr : r ∈ (State.run codec es).checks)
    (hdone : r.frame.index ∉ (State.run codec es).pending codec) :
    (((State.run codec es).accepted k).map index).count r.frame.index
    = if r.serves k then 1 else 0 := by
  have hline := run_line codec es
  have hnd : ((run codec es).checks.map fun r => r.frame.index).Nodup := by
    have hsub := hline.increasing ((List.sublist_append_left _ _).trans hline.sublist)
    rw [List.map_map] at hsub
    exact hsub.imp (fun h => Nat.ne_of_lt h)
  rw [← count_map_filter hnd hr]
  have hserved : _ = _ := run_served codec k es
  have hmap : ((run codec es).checks.filter (serves k)).map (fun r => r.frame.index)
      = ((run codec es).promised k).map index := by
    unfold promised
    rw [List.map_map]
    rfl
  rw [hmap, ← hserved, List.map_append, List.count_append]
  -- what the handler holds is pending
  have hholds : r.frame.index ∉ ((run codec es).handler.holds k).map index := by
    intro hmem
    refine hdone ?_
    unfold pending
    rw [List.map_append]
    exact List.mem_append_left _ (((holds_sublist k _).map _).subset hmem)
  rw [List.count_eq_zero_of_not_mem hholds, Nat.add_zero]

def State.running (s : State) (k : Nat) : Bool := (s.clients[k]?).any Client.running

lemma received_of_running (h : s.running k = true) :
    s.received k = s.accepted k := by
  unfold running at h
  unfold received accepted
  cases hc : s.clients[k]? with
  | none => rfl
  | some c =>
    rw [hc] at h
    refine Client.received_of_running ?_
    cases hw : c.writer with
    | running => rfl
    | leaving lost | ended lost => simp [Client.running, hw] at h

/-- In every run, what a client receives is a subsequence of the encoded
batches in the order in which they were sent, and no batch comes twice. A
batch during which the client stays in the map is still pending, or was
checked; and then a client that is still written to has it exactly once if
the check found as many connections as the broadcaster had counted, and not
at all if it did not. -/
theorem committed_batches_delivered (codec : Codec) (es : List Event) (k : Nat) :
    ((State.run codec es).received k).Sublist ((State.run codec es).sent.map codec.frame)
    ∧ (((State.run codec es).received k).map Frame.index).Pairwise (· < ·)
    ∧ ∀ n < (State.run codec es).sent.length, Stays codec k n es →
      n ∈ (State.run codec es).pending codec
        ∨ ∃ r ∈ (State.run codec es).checks, r.frame.index = n
          ∧ ((State.run codec es).running k = true →
            (((State.run codec es).received k).map Frame.index).count n
              = if r.actual = r.expected then 1 else 0) := by
  have hline := run_line codec es
  have hsub : ((run codec es).received k).Sublist ((run codec es).sent.map codec.frame) :=
    (received_sublist_accepted _ k).trans ((accepted_sublist_checks codec k es).trans
        ((List.sublist_append_left _ _).trans hline.sublist))
  refine ⟨hsub, hline.increasing hsub, fun n hn hstays => ?_⟩
  by_cases hpend : n ∈ (run codec es).pending codec
  · exact .inl hpend
  right
  have hmem := hstays.mem_track hn
  unfold track at hmem
  rw [List.map_append, List.mem_append] at hmem
  rcases hmem with hmem | hmem
  · rw [List.map_map, List.mem_map] at hmem
    obtain ⟨r, hr, hindex⟩ := hmem
    have hindex : r.frame.index = n := hindex
    refine ⟨r, hr, hindex, fun hrun => ?_⟩
    have hk := hstays.mem_targets r hr hindex
    rw [received_of_running hrun, ← hindex, accepted_count codec k es hr (hindex ▸ hpend)]
    simp [serves, hk]
  refine absurd ?_ hpend
  unfold pending
  rw [List.map_append]
  exact List.mem_append_right _ hmem

theorem committed_batches_delivered_once :
    Stays Duo.codec 0 0 Duo.served
      ∧ (((State.run Duo.codec Duo.served).received 0).map Frame.index).count
        0 = 1 := by
  have hrun : Stays codec 0 0 served ∧ 0 < (run codec served).sent.length ∧ 0
      ∉ (run codec served).pending codec ∧ (run codec served).running 0 = true
      ∧ ∀ r ∈ (run codec served).checks, r.actual = r.expected := by
    decide +kernel
  obtain ⟨hstays, hsent, hdone, hrunning, hchecks⟩ := hrun
  obtain ⟨-, -, hdel⟩ := committed_batches_delivered codec served 0
  rcases hdel 0 hsent hstays with hpend | ⟨r, hr, -, hcount⟩
  · exact absurd hpend hdone
  refine ⟨hstays, ?_⟩
  rw [hcount hrunning, if_pos (hchecks r hr)]

/-- A second client connects between the count and the check: the first
one, in the map all the time, never gets the batch. -/
theorem committed_batches_delivered_fails :
    ¬ ∀ (codec : Codec) (es : List Event) (k n : Nat),
    n < (State.run codec es).sent.length → Stays codec k n es →
    k ∈ (State.run codec es).targets →
    (State.run codec es).running k = true →
    n ∈ (State.run codec es).pending codec
      ∨ (((State.run codec es).received k).map Frame.index).count n = 1 := by
  intro h
  have hrun := h codec crowded 0 0
    (by decide +kernel) (by decide +kernel) (by decide +kernel)
    (by decide +kernel)
  revert hrun
  decide +kernel

end HetuEngine.Relay
