/-
The timeouts of the consensus (consensus/ticker.go).

`timeoutRoutine` takes the timeouts that `ScheduleTimeout` puts on `tickChan`
and keeps those for a later height, round and step than the one before. There
is one timer: a later timeout replaces the one that runs, also if that has
expired and it was not noticed yet. What expired is sent on `tockChan` by a
goroutine each, so `tocks` is the order in which the timer expired. Durations
are left out: the timer may expire at any time while it is active.

The proof follows `line`: what was fired, and then what is running.
-/
import HetuEngine.Comet.Voter
import Mathlib.Data.List.Induction

namespace HetuEngine.Comet

open List

def TimeoutInfo.hrs (ti : TimeoutInfo) : HRS := toLex (ti.height, toLex (ti.round, ti.step.num))

/-- The state of `timeoutRoutine`; its variable `ti` is the zero value before
the first timeout. -/
structure Ticker where
  ti : Option TimeoutInfo
  timerActive : Bool
  tocks : List TimeoutInfo

namespace Ticker

inductive Event where
  | tick (newti : TimeoutInfo)
  | expired

def new : Ticker := ⟨none, false, []⟩

/-- The check for an old height, round and step. The step of the zero value
is 0, which allows every step. -/
def ignores (t : Ticker) (newti : TimeoutInfo) : Bool :=
  match t.ti with
  | none => newti.height < 0 || newti.height = 0 && newti.round < 0
  | some ti =>
    newti.height < ti.height || newti.height = ti.height
      && (newti.round < ti.round || newti.round = ti.round && newti.step ≤ ti.step)

/-- One round of the loop in `timeoutRoutine`. -/
def step (t : Ticker) : Event → Ticker
  | .tick newti =>
    if t.ignores newti then t else { t with ti := some newti, timerActive := true }
  | .expired =>
    match t.timerActive, t.ti with
    | true, some ti => { t with timerActive := false, tocks := t.tocks ++ [ti] }
    | _, _ => t

def run (es : List Event) : Ticker := es.foldl step new

def scheduled (es : List Event) : List TimeoutInfo :=
  es.filterMap fun
    | .tick ti => some ti
    | .expired => none

/-- The timeouts that were fired, and the one that is running. -/
def line (t : Ticker) : List TimeoutInfo := t.tocks ++ if t.timerActive then t.ti.toList else []

variable {t : Ticker} {ti newti : TimeoutInfo} {l : List TimeoutInfo}

lemma ignores_some (h : t.ti = some ti) :
    t.ignores newti = true ↔ newti.hrs ≤ ti.hrs := by
  unfold ignores TimeoutInfo.hrs
  rw [h, Prod.Lex.toLex_le_toLex, Prod.Lex.toLex_le_toLex]
  simp only [Bool.or_eq_true, Bool.and_eq_true, decide_eq_true_eq]
  rfl

lemma line_expired (t : Ticker) :
    (t.step .expired).line = t.line ∧ (t.step .expired).ti = t.ti := by
  unfold step line
  dsimp only
  split
  · next hactive hti => simp [hactive, hti]
  exact ⟨rfl, rfl⟩

/-- The line is in order, and ends with the greatest timeout that was
scheduled. -/
structure Ticks (t : Ticker) (scheduled : List TimeoutInfo) : Prop where
  order : t.line.Pairwise fun earlier later => earlier.hrs < later.hrs
  last : t.line.getLast? = t.ti
  sub : t.line <+ scheduled
  greatest : ∀ newti ∈ scheduled, new.ignores newti = false →
    ∃ ti, t.ti = some ti ∧ newti.hrs ≤ ti.hrs

lemma Ticks.le (h : Ticks t l) (hti : t.ti = some ti) :
    ∀ tock ∈ t.line, tock.hrs ≤ ti.hrs := by
  obtain ⟨init, hline⟩ := getLast?_eq_some_iff.mp (h.last.trans hti)
  have horder := h.order
  rw [hline] at horder ⊢
  intro tock htock
  rcases mem_append.mp htock with htock | htock
  · exact ((pairwise_append.mp horder).2.2 tock htock ti mem_cons_self).le
  rw [mem_singleton.mp htock]

lemma Ticks.tick (h : Ticks t l) (newti : TimeoutInfo) :
    Ticks (t.step (.tick newti)) (l ++ [newti]) := by
  unfold step
  dsimp only
  split_ifs with hign
  · refine ⟨h.order, h.last, h.sub.trans (sublist_append_left _ _), fun newti' hnew hok => ?_⟩
    rcases mem_append.mp hnew with hold | hself
    · exact h.greatest newti' hold hok
    obtain rfl := mem_singleton.mp hself
    cases hti : t.ti with
    | none =>
      unfold ignores at hign hok
      rw [hti] at hign
      exact absurd (hign.symm.trans hok) nofun
    | some ti => exact ⟨ti, rfl, (ignores_some hti).mp hign⟩
  have hlt : ∀ ti, t.ti = some ti → ti.hrs < newti.hrs := fun ti hti =>
    not_le.mp fun hle => hign ((ignores_some hti).mpr hle)
  -- a timeout that runs is dropped
  have hfired : t.tocks <+ t.line := sublist_append_left _ _
  refine ⟨pairwise_append.mpr ⟨h.order.sublist hfired, pairwise_singleton _ _, ?_⟩,
    getLast?_concat, (hfired.trans h.sub).append_right _, fun newti' hnew hok => ⟨newti, rfl, ?_⟩⟩
  · intro tock htock ti' hti'
    rw [mem_singleton.mp hti']
    cases hti : t.ti with
    | none =>
      rw [getLast?_eq_none_iff.mp (h.last.trans hti)] at hfired
      cases hfired.subset htock
    | some ti => exact (h.le hti tock (hfired.subset htock)).trans_lt (hlt ti hti)
  rcases mem_append.mp hnew with hold | hself
  · obtain ⟨ti, hti, hle⟩ := h.greatest newti' hold hok
    exact hle.trans (hlt ti hti).le
  rw [mem_singleton.mp hself]

lemma Ticks.expired (h : Ticks t l) : Ticks (t.step .expired) l := by
  obtain ⟨order, last, sub, greatest⟩ := h
  obtain ⟨hline, hti⟩ := t.line_expired
  rw [← hline] at order last sub
  rw [← hti] at last greatest
  exact ⟨order, last, sub, greatest⟩

lemma run_ticks (es : List Event) : Ticks (run es) (scheduled es) := by
  induction es using reverseRecOn with
  | nil => exact ⟨.nil, rfl, .slnil, forall_mem_nil _⟩
  | append_singleton es e ih =>
    unfold run scheduled
    rw [foldl_append, filterMap_append]
    cases e with
    | tick newti => exact ih.tick newti
    | expired =>
      rw [show filterMap _ [Event.expired] = [] from rfl, append_nil]
      exact ih.expired

/-- Whenever the timer expires: each timeout is fired at most once, in order
and as they were scheduled; and for every timeout that was scheduled (from
height and round 0 on), one that is not for an earlier height, round and step
was fired or is running. -/
theorem timeouts_in_order (es : List Event) :
    (run es).tocks.Pairwise (fun earlier later => earlier.hrs < later.hrs)
      ∧ (run es).tocks <+ scheduled es
      ∧ ∀ newti ∈ scheduled es, new.ignores newti = false →
        ∃ ti ∈ scheduled es, newti.hrs ≤ ti.hrs
          ∧ (ti ∈ (run es).tocks
            ∨ (run es).timerActive = true ∧ (run es).ti = some ti) := by
  have h := run_ticks es
  have hfired : (run es).tocks <+ (run es).line := sublist_append_left _ _
  refine ⟨h.order.sublist hfired, hfired.trans h.sub, fun newti hnew hok => ?_⟩
  obtain ⟨ti, hti, hle⟩ := h.greatest newti hnew hok
  have hline : ti ∈ (run es).line := mem_of_getLast? (h.last.trans hti)
  refine ⟨ti, h.sub.subset hline, hle, (mem_append.mp hline).imp_right fun hmem => ?_⟩
  split at hmem
  · next hactive => exact ⟨hactive, hti⟩
  cases hmem

end Ticker

end HetuEngine.Comet
