/-! When to run. A nudge wakes an idle alarm; nudges that come while it is not idle leave a single
permit, which wakes it again later. After waking it lets a quiet period pass, drops the permit if it
let any time pass, and runs. Time is counted in milliseconds. -/

namespace Reconcile

namespace Alarm

inductive Phase
  | ready
  | idle
  | resting (deadline : Nat)
  /-- The quiet period is over, and the permit is to be dropped. -/
  | rested
  | starting
  | running
  | ended
deriving Repr, DecidableEq

end Alarm

structure Alarm where
  quiet : Nat
  phase : Alarm.Phase := .ready
  permit : Bool := false
deriving Repr, DecidableEq

namespace Alarm

def wake (a : Alarm) (now : Nat) : Alarm := { a with phase := .resting (now + a.quiet) }

def nudge (a : Alarm) (now : Nat) : Alarm :=
  match a.phase with
  | .idle => a.wake now
  | _ => { a with permit := true }

/-- Start to wait for a nudge, which uses up a permit at once. -/
def arm (a : Alarm) (now : Nat) : Alarm :=
  match a.phase with
  | .ready => if a.permit then { a with permit := false }.wake now else { a with phase := .idle }
  | _ => a

def rest (a : Alarm) : Alarm :=
  match a.phase with
  | .resting _ => { a with phase := if a.quiet = 0 then .starting else .rested }
  | _ => a

/-- Drop the permit: its nudge is served by the run that follows. -/
def dropPermit (a : Alarm) : Alarm :=
  match a.phase with
  | .rested => { a with phase := .starting, permit := false }
  | _ => a

def start (a : Alarm) (alive : Bool) : Alarm :=
  match a.phase with
  | .starting => { a with phase := if alive then .running else .ended }
  | _ => a

def finish (a : Alarm) : Alarm :=
  match a.phase with
  | .running => { a with phase := .ready }
  | _ => a

/-- Everything from the end of the quiet period to the start of the run. -/
def ring (a : Alarm) (alive : Bool) : Alarm := (a.rest.dropPermit).start alive

def due? (a : Alarm) : Option Nat :=
  match a.phase with
  | .resting t => some t
  | _ => none

def isEnded (a : Alarm) : Bool := a.phase = .ended

/-- Let time pass, with runs that take none and nudge nobody, and count them. No more than `fuel`
runs are made. -/
def elapse (alive : Bool) (deadline : Nat) : Nat → Nat → Alarm → Alarm × Nat
  | 0, _, a => (a, 0)
  | fuel + 1, now, a =>
    let a := a.arm now
    match a.due? with
    | none => (a, 0)
    | some t =>
      if deadline < t then (a, 0)
      else
        let a := a.ring alive
        if a.phase = .running then
          let (a, runs) := elapse alive deadline fuel t a.finish
          (a, runs + 1)
        else (a, 0)

end Alarm

structure Watch where
  alarm : Alarm
  clock : Nat := 0
  alive : Bool := true
  runs : Nat := 0
deriving Repr, DecidableEq

namespace Watch

def nudge (w : Watch) : Watch := { w with alarm := w.alarm.nudge w.clock }

def drop (w : Watch) : Watch := { w with alive := false }

/-- Let time pass. One run for the nudge that woke the alarm and one for the permit are all there
can be. -/
def wait (w : Watch) (span : Nat) : Watch :=
  let deadline := w.clock + span
  let (alarm, runs) := w.alarm.elapse w.alive deadline 3 w.clock
  { w with alarm, clock := deadline, runs := w.runs + runs }

end Watch

end Reconcile
