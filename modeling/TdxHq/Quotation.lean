import TdxHq.Library.Runs

namespace TdxHq.Quotation

inductive Event
  | fired
  | began
  | stock (i : ℕ)
  | ended
  deriving DecidableEq, Repr

/-- Where the worker is in `Run`. -/
inductive Phase
  /-- At the top of `while( 1 )`. -/
  | poll
  /-- In `while( conID < 0 )`. -/
  | connect
  /-- In the `for` loop, before the test `i < m_iStockNum`. -/
  | stocks (i : ℕ)
  | exited
  deriving DecidableEq, Repr

structure Worker where
  g_bGetQuotation : Bool
  conID : ℤ
  phase : Phase
  log : List Event
  deriving DecidableEq, Repr

def start : Worker := ⟨false, -1, .poll, []⟩

/-- What a step of the worker meets with: a message that ends the thread, and the result of
`TDXHQ_Connect`. -/
structure Input where
  quit : Bool
  connectRet : ℤ
  deriving DecidableEq, Repr

inductive Action
  | timer
  | work (input : Input)
  deriving DecidableEq, Repr

/-- `OnTimer` in a new trading minute, as far as this worker is concerned. -/
def onTimer (w : Worker) : Worker :=
  { w with g_bGetQuotation := true, log := w.log ++ [.fired] }

/-- One step of `Run`; what is done for one stock is a single step. -/
def runStep (m_iStockNum : ℕ) (input : Input) (w : Worker) : Worker :=
  match w.phase with
  | .poll =>
    if input.quit then { w with phase := .exited }
    else if w.g_bGetQuotation then { w with phase := .connect, log := w.log ++ [.began] }
    else w
  | .connect =>
    if w.conID < 0 then { w with conID := input.connectRet } else { w with phase := .stocks 0 }
  | .stocks i =>
    if i < m_iStockNum then { w with phase := .stocks (i + 1), log := w.log ++ [.stock i] }
    else { w with g_bGetQuotation := false, phase := .poll, log := w.log ++ [.ended] }
  | .exited => w

def step (m_iStockNum : ℕ) (w : Worker) : Action → Worker
  | .timer => onTimer w
  | .work input => runStep m_iStockNum input w

/-- The timer has fired since the last cycle began. -/
def unanswered (log : List Event) : Bool :=
  log.foldl (fun owed e =>
    match e with
    | .fired => true
    | .began => false
    | _ => owed) false

/-- Out of a cycle, a request that no cycle has answered is still in the flag. -/
def RequestKept (w : Worker) : Prop :=
  w.phase = .poll → unanswered w.log = true → w.g_bGetQuotation = true

def EndsCycle (m_iStockNum : ℕ) (w : Worker) (a : Action) : Prop :=
  ∃ input i, a = .work input ∧ w.phase = .stocks i ∧ m_iStockNum ≤ i

/-- The step does not end a cycle in which the timer has fired. -/
def Undisturbed (m_iStockNum : ℕ) (w : Worker) (a : Action) : Prop :=
  EndsCycle m_iStockNum w a → unanswered w.log = false

@[simp] theorem unanswered_ended (log : List Event) :
    unanswered (log ++ [.ended]) = unanswered log := by
  simp [unanswered]

theorem step_of_endsCycle {m_iStockNum : ℕ} {w : Worker} {a : Action}
    (h : EndsCycle m_iStockNum w a) :
    step m_iStockNum w a =
      { w with g_bGetQuotation := false, phase := .poll, log := w.log ++ [.ended] } := by
  obtain ⟨input, i, rfl, hphase, hi⟩ := h
  simp only [step, runStep, hphase, if_neg (Nat.not_lt.mpr hi)]

theorem requestKept_of_not_endsCycle {m_iStockNum : ℕ} {w : Worker} {a : Action}
    (hend : ¬ EndsCycle m_iStockNum w a) (hw : RequestKept w) :
    RequestKept (step m_iStockNum w a) := by
  cases a with
  | timer => exact fun _ _ => rfl
  | work input =>
    -- a step that stays out of `poll` has nothing to keep
    have hbusy : ∀ w' : Worker, w'.phase ≠ .poll → RequestKept w' := fun w' h hpoll =>
      absurd hpoll h
    cases hphase : w.phase with
    | poll =>
      simp only [step, runStep, hphase]
      split_ifs
      · exact hbusy _ (by simp)
      · exact hbusy _ (by simp)
      · exact hw
    | connect =>
      simp only [step, runStep, hphase]
      split_ifs
      · exact hbusy _ (by simp)
      · exact hbusy _ (by simp)
    | stocks i =>
      have hi : i < m_iStockNum := by
        by_contra hi
        exact hend ⟨input, i, rfl, hphase, by omega⟩
      simp only [step, runStep, hphase, if_pos hi]
      exact hbusy _ (by simp)
    | exited =>
      simp only [step, runStep, hphase]
      exact hw

/-- One step keeps the requests exactly if it does not end a disturbed cycle. -/
theorem requestKept_step_iff {m_iStockNum : ℕ} {w : Worker} {a : Action} (hw : RequestKept w) :
    RequestKept (step m_iStockNum w a) ↔ Undisturbed m_iStockNum w a := by
  by_cases hend : EndsCycle m_iStockNum w a
  · -- the flag goes down with the cycle, so there must be nothing to keep
    rw [step_of_endsCycle hend]
    simp [RequestKept, Undisturbed, hend]
  · exact ⟨fun _ h => absurd h hend, fun _ => requestKept_of_not_endsCycle hend hw⟩

/-- A run of the worker and the timer never drops a request exactly if no cycle comes to its
end in which the timer has fired. -/
theorem requests_kept_iff (m_iStockNum : ℕ) (actions : List Action) :
    Runs.Always (step m_iStockNum) RequestKept start actions ↔
      Runs.Meets (step m_iStockNum) (Undisturbed m_iStockNum) start actions := by
  have hstart : RequestKept start := by simp [RequestKept, start, unanswered]
  exact Runs.always_iff_meets (I := fun _ => True) (fun _ _ _ => trivial)
    (fun _ _ _ hw => requestKept_step_iff hw) trivial hstart

/-- One stock and a timer that fires again while it is looked up: the second request is gone
when the worker is back at the top of its loop. -/
theorem second_request_lost :
    ¬ ∀ (m_iStockNum : ℕ) (actions : List Action),
      Runs.Always (step m_iStockNum) RequestKept start actions := by
  intro h
  let go : Action := .work ⟨false, 0⟩
  have hkept := Runs.always_iff_prefix.mp (h 1 [.timer, go, .timer, go, go, go, go]) _ []
    (List.append_nil _).symm
  exact absurd (hkept (by decide) (by decide)) (by decide)

end TdxHq.Quotation
