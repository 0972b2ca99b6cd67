import Rtstream.MediaTypes
import Rtstream.Lib.OrderedMap
import Rtstream.Lib.Runs
import Mathlib.Data.Rat.Defs

/-!
# `jitter_buffer.h`: reordering units by sequence number

Units arrive in any order and leave in the order of their sequence numbers, each after a
waiting time that adapts to the jitter. `push` inserts a unit, re-estimates the jitter, reports
the numbers that are missing before it and evicts units when the buffer is full; `pop` hands out
the head, or skips a gap that was waited for long enough.

Sequence numbers are 32 bits wide and compared by the sign of their difference (`seqLt`), while
the buffer is a `std::map` in numeric order. Times are microseconds; `double`s are read as exact
rationals. Each call gets one clock reading `now`.
-/

namespace Rtstream

open Std (TreeMap)

/-- `JitterBuffer::Unit`: a buffered unit. A null `data` marks a slot as empty. -/
structure JbUnit (Ctx : Type) where
  seq : UInt32 := 0
  genUs : Int := 0
  firstRecvUs : Int := 0
  data : Option Ctx := none
  deriving DecidableEq, Repr

/-- What a call makes the rest of the program see. -/
inductive JbEvent
  /-- The `on_missing` callback. -/
  | missing (seq : UInt32)
  /-- `Metrics::nack_requested++`. -/
  | nackRequested
  /-- `Metrics::net_lost += n`. -/
  | lost (n : UInt32)
  deriving DecidableEq, Repr

structure JitterBuffer (Ctx : Type) where
  buf : TreeMap UInt32 (JbUnit Ctx) := ∅
  nextOut : UInt32 := 0
  started : Bool := false
  headMissingSinceUs : Int := 0
  firstArrivalUs : Int := 0
  lastArrivalUs : Int := 0
  lastGenUs : Int := 0
  lastPopUs : Int := 0
  jitterUs : ℚ := 0
  rttMs : ℚ := 0
  targetDelayUs : Int := 40 * 1000
  maxWaitUs : Int := 130 * 1000
  minDelayUs : Int := 15 * 1000
  maxDelayUs : Int := 250 * 1000
  nackIntervalUs : Int := 10 * 1000
  lastNackUs : TreeMap UInt32 Int := ∅
  /-- Whether an `on_missing` callback is installed. -/
  onMissing : Bool := false
  maxUnits : ℕ := 512
  totalBuffered : ℕ := 0

namespace JitterBuffer

variable {Ctx : Type}

/-- The constructor, with what its owner sets before the first call. -/
def create (maxUnits : ℕ) (onMissing : Bool) (nackIntervalUs : Int) : JitterBuffer Ctx :=
  { maxUnits := maxUnits, onMissing := onMissing, nackIntervalUs := nackIntervalUs }

/-! ## Comparing sequence numbers -/

/-- `seq_lt`: wrap-safe comparison. -/
def seqLt (a b : UInt32) : Bool := (a - b).toInt32 < 0

/-- `seq_delta`: how far `a` is ahead of `b`. -/
def seqDelta (a b : UInt32) : UInt32 := a - b

/-! ## The adaptive depth -/

/-- `static_cast<int64_t>` of a `double`: towards zero. -/
def truncToInt (q : ℚ) : Int := q.num.tdiv q.den

/-- `retune_target_locked`: the depth is `3 * jitter + rtt`, within bounds. -/
def retuneTarget (jb : JitterBuffer Ctx) : JitterBuffer Ctx :=
  let target := truncToInt (3 * jb.jitterUs + jb.rttMs * 1000)
  let target := max target jb.minDelayUs
  let target := min target jb.maxDelayUs
  { jb with targetDelayUs := target, maxWaitUs := 2 * target + 50 * 1000 }

/-- `set_rtt_ms`. -/
def setRttMs (jb : JitterBuffer Ctx) (ms : ℚ) : JitterBuffer Ctx :=
  retuneTarget { jb with rttMs := ms }

/-- The jitter estimate, updated only by units that arrive in order. -/
def estimateJitter (jb : JitterBuffer Ctx) (seq : UInt32) (genUs now : Int) : JitterBuffer Ctx :=
  if seq ≠ jb.nextOut then jb
  else
    let dArr := now - jb.lastArrivalUs
    let dGen := genUs - jb.lastGenUs
    let jb := if jb.lastArrivalUs ≠ 0 ∧ dGen > 0 ∧ dArr ≥ 0 then
        let d : ℚ := dArr - dGen
        let d := if d < 0 then -d else d
        let d := if d > 200 * 1000 then 200 * 1000 else d
        retuneTarget { jb with jitterUs := jb.jitterUs + (d - jb.jitterUs) / 16 }
      else jb
    { jb with lastArrivalUs := now, lastGenUs := genUs }

/-! ## Pushing -/

/-- The first unit sets the number that is due. -/
def startAt (jb : JitterBuffer Ctx) (seq : UInt32) (now : Int) : JitterBuffer Ctx :=
  if jb.started then jb else { jb with started := true, nextOut := seq, firstArrivalUs := now }

/-- `auto& slot = buf_[seq]`: fill the slot, unless it holds a unit already. -/
def store (jb : JitterBuffer Ctx) (seq : UInt32) (genUs : Int) (data : Option Ctx) (now : Int) :
    JitterBuffer Ctx :=
  let slot := jb.buf[seq]?.getD {}
  if slot.data.isSome then jb
  else { jb with
    buf := jb.buf.insert seq { seq := seq, genUs := genUs, firstRecvUs := now, data := data }
    totalBuffered := jb.totalBuffered + 1 }

/-- `maybe_nack_locked`: request a missing number, unless it was requested just now. -/
def maybeNack (jb : JitterBuffer Ctx) (seq : UInt32) (now : Int) :
    JitterBuffer Ctx × List JbEvent :=
  if (jb.lastNackUs[seq]?.any fun t => now - t < jb.nackIntervalUs) then (jb, [])
  else
    let table := jb.lastNackUs.insert seq now
    let table := if table.size > 4096 then ∅ else table
    ({ jb with lastNackUs := table },
      (if jb.onMissing then [.missing seq] else []) ++ [.nackRequested])

/-- One turn of the loop over the numbers before an arrival. -/
def nackAbsent (now : Int) (acc : JitterBuffer Ctx × List JbEvent) (s : UInt32) :
    JitterBuffer Ctx × List JbEvent :=
  if acc.1.buf.contains s then acc
  else ((acc.1.maybeNack s now).1, acc.2 ++ (acc.1.maybeNack s now).2)

/-- `detect_missing_locked`: a jump of more than 1024 re-aligns, a smaller one reports the
numbers in between that are not buffered. -/
def detectMissing (jb : JitterBuffer Ctx) (arrivedSeq : UInt32) (now : Int) :
    JitterBuffer Ctx × List JbEvent :=
  if seqLt arrivedSeq jb.nextOut || arrivedSeq == jb.nextOut then (jb, [])
  else
    let gap := seqDelta arrivedSeq jb.nextOut
    if gap > 1024 then ({ jb with nextOut := arrivedSeq, firstArrivalUs := now }, [])
    else ((List.range gap.toNat).map fun i => jb.nextOut + UInt32.ofNat i).foldl
      (nackAbsent now) (jb, [])

/-- `while (buf_.size() > max_units_) buf_.erase(buf_.begin());` with its loss count. The fuel
is the size, and every turn erases a unit. -/
def evictLoop (maxUnits : ℕ) : ℕ → TreeMap UInt32 (JbUnit Ctx) →
    TreeMap UInt32 (JbUnit Ctx) × List JbEvent
  | 0, buf => (buf, [])
  | fuel + 1, buf =>
      if maxUnits < buf.size then
        match OrderedMap.first? buf with
        | some (k, _) =>
            let (buf, evs) := evictLoop maxUnits fuel (buf.erase k)
            (buf, .lost 1 :: evs)
        | none => (buf, [])
      else (buf, [])

/-- `evict_overflow_locked`. -/
def evictOverflow (jb : JitterBuffer Ctx) : JitterBuffer Ctx × List JbEvent :=
  let (buf, evs) := evictLoop jb.maxUnits jb.buf.size jb.buf
  ({ jb with buf := buf }, evs)

/-- `push`: insert a unit; `false` when its number has been passed already. -/
def push (jb : JitterBuffer Ctx) (seq : UInt32) (genUs : Int) (data : Option Ctx) (now : Int) :
    JitterBuffer Ctx × Bool × List JbEvent :=
  if jb.started && seqLt seq jb.nextOut then (jb, false, [])
  else
    let jb := ((jb.startAt seq now).estimateJitter seq genUs now).store seq genUs data now
    let (jb, evs) := jb.detectMissing seq now
    let (jb, evs') := jb.evictOverflow
    (jb, true, evs ++ evs')

/-! ## Popping -/

/-- `starved`: nothing was popped for longer than the depth. -/
def starved (jb : JitterBuffer Ctx) (now : Int) : Bool := now - jb.lastPopUs > jb.targetDelayUs

/-- Since when the head is missing; this call may be the first to notice. -/
def missingSince (jb : JitterBuffer Ctx) (now : Int) : Int :=
  if jb.headMissingSinceUs = 0 then now else jb.headMissingSinceUs

/-- A missing head is waited for, unless it is late or the consumer starves. -/
def waitsForHead (jb : JitterBuffer Ctx) (now : Int) : Bool :=
  now - jb.missingSince now < jb.maxWaitUs && !jb.starved now

/-- Hand out the unit stored under `k`. -/
def takeOut (jb : JitterBuffer Ctx) (k : UInt32) (u : JbUnit Ctx) (now : Int) :
    JitterBuffer Ctx :=
  { jb with
    buf := jb.buf.erase k
    nextOut := u.seq + 1
    lastPopUs := now
    headMissingSinceUs := 0
    totalBuffered := jb.totalBuffered - 1 }

/-- `pop`: hand out the unit that is due, or skip to the first buffered one. -/
def pop (jb : JitterBuffer Ctx) (now : Int) :
    JitterBuffer Ctx × Option (JbUnit Ctx) × List JbEvent :=
  if !jb.started || jb.buf.isEmpty then (jb, none, [])
  else match jb.buf[jb.nextOut]? with
    | none =>
        if jb.waitsForHead now then
          ({ jb with headMissingSinceUs := jb.missingSince now }, none,
            (if jb.onMissing then [.missing jb.nextOut] else []) ++ [.nackRequested])
        else match OrderedMap.first? jb.buf with
          | some (head, u) =>
              (jb.takeOut head u now, some u, [.lost (seqDelta head jb.nextOut)])
          | none => (jb, none, [])
    | some u =>
        if now - u.firstRecvUs < jb.targetDelayUs && !jb.starved now then
          ({ jb with headMissingSinceUs := 0 }, none, [])
        else (jb.takeOut jb.nextOut u now, some u, [])

/-! ## Runs -/

end JitterBuffer

/-- A call on the buffer. -/
inductive JbInput (Ctx : Type)
  | push (seq : UInt32) (genUs : Int) (data : Option Ctx) (now : Int)
  | pop (now : Int)
  | setRttMs (ms : ℚ)

/-- What is observed of a call. -/
inductive JbOutput (Ctx : Type)
  | pushed (seq : UInt32) (accepted : Bool)
  | popped (u : JbUnit Ctx)
  | event (e : JbEvent)

namespace JitterBuffer

variable {Ctx : Type}

/-- The buffer as a machine that is fed calls. -/
def step (jb : JitterBuffer Ctx) : JbInput Ctx → JitterBuffer Ctx × List (JbOutput Ctx)
  | .push seq genUs data now =>
      let r := jb.push seq genUs data now
      (r.1, .pushed seq r.2.1 :: r.2.2.map .event)
  | .pop now =>
      let r := jb.pop now
      (r.1, r.2.1.toList.map .popped ++ r.2.2.map .event)
  | .setRttMs ms => (jb.setRttMs ms, [])

/-- The clock readings of the calls, in order. -/
def clocks (is : List (JbInput Ctx)) : List Int :=
  is.filterMap fun
    | .push _ _ _ now | .pop now => some now
    | .setRttMs _ => none

/-- The numbers of the units popped, in order. -/
def poppedSeqs (os : List (JbOutput Ctx)) : List UInt32 :=
  os.filterMap fun
    | .popped u => some u.seq
    | _ => none

end JitterBuffer

end Rtstream
