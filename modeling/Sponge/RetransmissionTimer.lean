import Sponge.Lib.Word

/-!
# The retransmission timer

`RetransmissionTimer` (retransmission_timer.hh, retransmission_timer.cc).  Times are `size_t`
values; the accumulated time and the doubled timeout wrap as the machine's do.
-/

namespace Sponge

structure RetransmissionTimer where
  isRunning : Bool
  accumulateTime : Nat
  rto : Nat
  initRto : Nat
  deriving DecidableEq, Repr

namespace RetransmissionTimer

/-- The constructor. -/
def new (retxTimeout : Nat) : RetransmissionTimer := ⟨false, 0, retxTimeout, retxTimeout⟩

/-- A running timer is not started again. -/
def startTimer (r : RetransmissionTimer) : RetransmissionTimer :=
  if r.isRunning then r else { r with isRunning := true, rto := r.initRto, accumulateTime := 0 }

def stopTimer (r : RetransmissionTimer) : RetransmissionTimer :=
  if r.isRunning then { r with isRunning := false } else r

/-- After a timeout the next one takes twice as long. -/
def handleTimeout (r : RetransmissionTimer) : RetransmissionTimer :=
  { r with rto := r.rto * 2 % Word.size, accumulateTime := 0 }

/-- `check_timeout`: did the timer expire?  A timer that is stopped does not count. -/
def checkTimeout (r : RetransmissionTimer) (msSinceLastTick : Nat) : Bool × RetransmissionTimer :=
  if r.isRunning then
    let acc := Word.add r.accumulateTime msSinceLastTick
    (r.rto ≤ acc, { r with accumulateTime := acc })
  else (false, r)

def setTimeout (r : RetransmissionTimer) (rtoTime : Nat) : RetransmissionTimer :=
  { r with rto := rtoTime }

def setAccumulateTime (r : RetransmissionTimer) (accumulateTime : Nat) : RetransmissionTimer :=
  { r with accumulateTime := accumulateTime }

/-! ## Whether the timer runs -/

@[simp] theorem new_isRunning (n : Nat) : (new n).isRunning = false := rfl

@[simp] theorem startTimer_isRunning (r : RetransmissionTimer) : r.startTimer.isRunning = true := by
  unfold startTimer
  split
  · assumption
  · rfl

@[simp] theorem stopTimer_isRunning (r : RetransmissionTimer) : r.stopTimer.isRunning = false := by
  unfold stopTimer
  split
  · rfl
  · rename_i h
    simpa using h

@[simp] theorem handleTimeout_isRunning (r : RetransmissionTimer) :
    r.handleTimeout.isRunning = r.isRunning := rfl

@[simp] theorem setTimeout_isRunning (r : RetransmissionTimer) (n : Nat) :
    (r.setTimeout n).isRunning = r.isRunning := rfl

@[simp] theorem setAccumulateTime_isRunning (r : RetransmissionTimer) (n : Nat) :
    (r.setAccumulateTime n).isRunning = r.isRunning := rfl

@[simp] theorem checkTimeout_isRunning (r : RetransmissionTimer) (ms : Nat) :
    (r.checkTimeout ms).2.isRunning = r.isRunning := by
  unfold checkTimeout
  split <;> rfl

/-- Only a running timer expires. -/
theorem isRunning_of_checkTimeout {r : RetransmissionTimer} {ms : Nat}
    (h : (r.checkTimeout ms).1 = true) : r.isRunning = true := by
  unfold checkTimeout at h
  split at h
  · assumption
  · cases h

end RetransmissionTimer

end Sponge
