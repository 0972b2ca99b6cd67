import Rtstream.MediaTypes
import Mathlib.Data.List.TakeWhile
import Mathlib.Logic.Function.Basic
import Mathlib.Tactic.Common

/-!
# `metrics.h`: the server's counters on the client

Once a second the server sends its counters as a JSON object. `update_remote_from_json` assigns them
one by one; an exception stops it where it is, and is swallowed. The JSON library is a parameter:
whether a payload parses, and what a key of an object holds.

`update_atomic_iff`: either everything is taken from the payload or nothing changes, exactly when no
counter that changes stands before one that cannot be read. `corrupted_payload_half_applied` is a
payload where one does.
-/

namespace Rtstream

/-! ## The code -/

/-- The counters, in the order in which they are assigned. -/
inductive RemoteCounter
  | captureFrames
  | encodedFrames
  | netPacketsSent
  | netBytesSent
  | netFecSent
  | simDropped
  | nackReceived
  | retransmitSent
  deriving DecidableEq, Repr

namespace RemoteCounter

def key : RemoteCounter → String
  | captureFrames => "capture_frames"
  | encodedFrames => "encoded_frames"
  | netPacketsSent => "net_packets_sent"
  | netBytesSent => "net_bytes_sent"
  | netFecSent => "net_fec_sent"
  | simDropped => "sim_dropped"
  | nackReceived => "nack_received"
  | retransmitSent => "retransmit_sent"

def all : List RemoteCounter :=
  [captureFrames, encodedFrames, netPacketsSent, netBytesSent, netFecSent, simDropped, nackReceived,
    retransmitSent]

theorem mem_all (c : RemoteCounter) : c ∈ all := by cases c <;> decide

end RemoteCounter

/-- What is used of the JSON library. No result is an exception. -/
structure JsonLib where
  Json : Type
  parse : Bytes → Option Json
  isObject : Json → Bool
  /-- The value under a key of an object. -/
  find : Json → String → Option Json
  /-- `get<uint64_t>`, for a value of a compatible type. -/
  toUInt64 : Json → Option UInt64

/-- `value(key, default)`, of an object. -/
def JsonLib.value (lib : JsonLib) (j : lib.Json) (key : String) (default : UInt64) :
    Option UInt64 :=
  match lib.find j key with
  | some v => lib.toUInt64 v
  | none => some default

@[ext]
structure RemoteMetrics where
  counter : RemoteCounter → UInt64 := fun _ => 0
  lastSyncUs : Int := 0

namespace RemoteMetrics

open RemoteCounter

variable (lib : JsonLib)

def set (m : RemoteMetrics) (c : RemoteCounter) (n : UInt64) : RemoteMetrics :=
  { m with counter := Function.update m.counter c n }

@[simp] theorem counter_set_self (m : RemoteMetrics) (c : RemoteCounter) (n : UInt64) :
    (m.set c n).counter c = n := by simp [set]

theorem counter_set_of_ne (m : RemoteMetrics) {c d : RemoteCounter} (h : c ≠ d) (n : UInt64) :
    (m.set d n).counter c = m.counter c := by
  simp [set, h]

/-- The assignments one after the other, and whether the end has been reached. -/
def assign (j : lib.Json) : List RemoteCounter → RemoteMetrics → RemoteMetrics × Bool
  | [], m => (m, true)
  | c :: rest, m =>
    match lib.value j c.key 0 with
    | some n => assign j rest (m.set c n)
    | none => (m, false)

/-- `update_remote_from_json` -/
def updateRemoteFromJson (m : RemoteMetrics) (payload : Bytes) (nowUs : Int) : RemoteMetrics :=
  match lib.parse payload with
  | none => m
  | some j =>
    if lib.isObject j then
      let (m, finished) := assign lib j all m
      if finished then { m with lastSyncUs := nowUs } else m
    else m

/-! ## What the assignments change -/

def Readable (j : lib.Json) (c : RemoteCounter) : Bool := (lib.value j c.key 0).isSome

variable {lib} {j : lib.Json}

@[simp] theorem lastSyncUs_assign (cs : List RemoteCounter) (m : RemoteMetrics) :
    (assign lib j cs m).1.lastSyncUs = m.lastSyncUs := by
  induction cs generalizing m with
  | nil => rfl
  | cons c cs ih =>
    rw [assign]
    cases lib.value j c.key 0 with
    | none => rfl
    | some n => exact ih (m.set c n)

theorem finished_assign (cs : List RemoteCounter) (m : RemoteMetrics) :
    (assign lib j cs m).2 = cs.all (Readable lib j) := by
  induction cs generalizing m with
  | nil => rfl
  | cons c cs ih =>
    rw [assign, List.all_cons, Readable]
    cases lib.value j c.key 0 with
    | none => rfl
    | some n => exact ih (m.set c n)

/-- The counters before the first unreadable one are assigned. -/
theorem counter_assign (cs : List RemoteCounter) (m : RemoteMetrics) (c : RemoteCounter) :
    (assign lib j cs m).1.counter c =
      if c ∈ cs.takeWhile (Readable lib j) then (lib.value j c.key 0).getD 0 else m.counter c := by
  induction cs generalizing m with
  | nil => rfl
  | cons d cs ih =>
    rw [assign, List.takeWhile_cons, Readable]
    cases hd : lib.value j d.key 0 with
    | none => rfl
    | some n =>
      simp only [Option.isSome_some, if_true, List.mem_cons]
      rw [ih (m.set d n)]
      by_cases hmem : c ∈ cs.takeWhile (Readable lib j)
      · rw [if_pos hmem, if_pos (Or.inr hmem)]
      rw [if_neg hmem]
      by_cases hcd : c = d
      · subst hcd
        rw [if_pos (Or.inl rfl), hd, counter_set_self, Option.getD_some]
      · rw [if_neg (not_or.2 ⟨hcd, hmem⟩), counter_set_of_ne m hcd]

theorem readable_of_mem {cs : List RemoteCounter} {c : RemoteCounter}
    (h : c ∈ cs.takeWhile (Readable lib j)) : ∃ n, lib.value j c.key 0 = some n :=
  Option.isSome_iff_exists.1 (List.mem_takeWhile_imp (p := Readable lib j) h)

/-! ## Atomicity -/

variable (lib)

/-- All counters are taken from the payload, a missing one as 0, and so is the time. -/
def Synced (payload : Bytes) (nowUs : Int) (m : RemoteMetrics) : Prop :=
  ∃ j, lib.parse payload = some j ∧ lib.isObject j ∧
    (∀ c : RemoteCounter, lib.value j c.key 0 = some (m.counter c)) ∧ m.lastSyncUs = nowUs

/-- All counters of the payload can be read, or those before the first that cannot be read have the
values that they are given. -/
def NothingHalfApplied (payload : Bytes) (m : RemoteMetrics) : Prop :=
  ∀ j, lib.parse payload = some j → lib.isObject j →
    (∀ c, Readable lib j c) ∨
      ∀ c ∈ all.takeWhile (Readable lib j), lib.value j c.key 0 = some (m.counter c)

variable {lib}

theorem synced_update {payload : Bytes} (hparse : lib.parse payload = some j)
    (hobject : lib.isObject j) (hread : ∀ c, Readable lib j c) (m : RemoteMetrics) (nowUs : Int) :
    Synced lib payload nowUs (m.updateRemoteFromJson lib payload nowUs) := by
  have hall : all.all (Readable lib j) := List.all_eq_true.2 fun c _ => hread c
  have hfinished : (assign lib j all m).2 = true := (finished_assign all m).trans hall
  simp only [updateRemoteFromJson, hparse, hobject, hfinished, if_true]
  refine ⟨j, hparse, hobject, fun c => ?_, rfl⟩
  have hmem : c ∈ all.takeWhile (Readable lib j) := by
    rw [List.takeWhile_eq_self_iff.2 fun c _ => hread c]
    exact mem_all c
  obtain ⟨n, hn⟩ := readable_of_mem hmem
  show _ = some ((assign lib j all m).1.counter c)
  rw [counter_assign, if_pos hmem, hn, Option.getD_some]

/-- A payload that cannot be read in full leaves the counters before the gap assigned. -/
theorem update_of_unreadable {payload : Bytes} (hparse : lib.parse payload = some j)
    (hobject : lib.isObject j) (hread : ¬ ∀ c, Readable lib j c) (m : RemoteMetrics) (nowUs : Int) :
    m.updateRemoteFromJson lib payload nowUs = (assign lib j all m).1 := by
  have hall : ¬ all.all (Readable lib j) := fun h =>
    hread fun c => List.all_eq_true.1 h c (mem_all c)
  have hfinished : (assign lib j all m).2 = false := by
    rw [finished_assign]
    exact Bool.not_eq_true _ ▸ hall
  simp only [updateRemoteFromJson, hparse, hobject, hfinished, if_true]
  rfl

theorem assign_eq_self_iff (m : RemoteMetrics) :
    (assign lib j all m).1 = m ↔
      ∀ c ∈ all.takeWhile (Readable lib j), lib.value j c.key 0 = some (m.counter c) := by
  constructor
  · intro heq c hmem
    have hcounter := counter_assign (j := j) all m c
    obtain ⟨n, hn⟩ := readable_of_mem hmem
    rw [heq, if_pos hmem, hn, Option.getD_some] at hcounter
    rw [hn, hcounter]
  · intro hsame
    apply RemoteMetrics.ext
    · funext c
      rw [counter_assign]
      split_ifs with hmem
      · rw [hsame c hmem, Option.getD_some]
      · rfl
    · exact lastSyncUs_assign all m

/-- **The update is atomic** exactly when no counter that changes stands before one that cannot be
read. -/
theorem update_atomic_iff (lib : JsonLib) (m : RemoteMetrics) (payload : Bytes) (nowUs : Int) :
    (Synced lib payload nowUs (m.updateRemoteFromJson lib payload nowUs) ∨
        m.updateRemoteFromJson lib payload nowUs = m) ↔
      NothingHalfApplied lib payload m := by
  cases hparse : lib.parse payload with
  | none =>
    have hnone : ∀ j, lib.parse payload ≠ some j := fun j => by simp [hparse]
    refine iff_of_true (Or.inr ?_) fun j h => absurd h (hnone j)
    rw [updateRemoteFromJson, hparse]
  | some j =>
    by_cases hobject : lib.isObject j
    · by_cases hread : ∀ c, Readable lib j c
      · refine iff_of_true (Or.inl (synced_update hparse hobject hread m nowUs)) ?_
        intro j' hj' _
        obtain rfl := Option.some.inj (hparse.symm.trans hj')
        exact Or.inl hread
      · rw [update_of_unreadable hparse hobject hread, assign_eq_self_iff]
        constructor
        · rintro (⟨j', hj', -, hsynced, -⟩ | hsame) k hk _
          · obtain rfl := Option.some.inj (hparse.symm.trans hj')
            exact absurd (fun c => Option.isSome_iff_exists.2 ⟨_, hsynced c⟩) hread
          · obtain rfl := Option.some.inj (hparse.symm.trans hk)
            exact Or.inr hsame
        · intro hnothing
          exact Or.inr ((hnothing j hparse hobject).resolve_left hread)
    · refine iff_of_true (Or.inr ?_) ?_
      · rw [updateRemoteFromJson, hparse]
        simp only [hobject, if_false, Bool.false_eq_true]
      · intro j' hj' hobject'
        obtain rfl := Option.some.inj (hparse.symm.trans hj')
        exact absurd hobject' hobject

/-! ## A corrupted payload -/

/-- The values of a small JSON object. -/
inductive SmallJson
  | number (n : UInt64)
  | string (s : String)
  | object (members : List (String × SmallJson))

/-- `{"capture_frames":5,"encoded_frames":"x"}`, parsed. -/
def mistyped : SmallJson :=
  .object [("capture_frames", .number 5), ("encoded_frames", .string "x")]

def mistypedText : Bytes :=
  "\x7b\"capture_frames\":5,\"encoded_frames\":\"x\"\x7d".toUTF8.toList

/-- The library, for the payload `mistypedText`. -/
def smallLib : JsonLib where
  Json := SmallJson
  parse payload := if payload = mistypedText then some mistyped else none
  isObject
    | .object _ => true
    | _ => false
  find
    | .object members, key => members.lookup key
    | _, _ => none
  toUInt64
    | .number n => some n
    | _ => none

/-- The client keeps the new number of captured frames and none of the other counters. -/
theorem corrupted_payload_half_applied :
    (({} : RemoteMetrics).updateRemoteFromJson smallLib mistypedText 1000).counter captureFrames =
        5 ∧
      (({} : RemoteMetrics).updateRemoteFromJson smallLib mistypedText 1000).lastSyncUs = 0 ∧
      ¬ (Synced smallLib mistypedText 1000
          (({} : RemoteMetrics).updateRemoteFromJson smallLib mistypedText 1000) ∨
        ({} : RemoteMetrics).updateRemoteFromJson smallLib mistypedText 1000 = {}) := by
  have hparse : smallLib.parse mistypedText = some mistyped := if_pos rfl
  have hupdate : ({} : RemoteMetrics).updateRemoteFromJson smallLib mistypedText 1000 =
      ({} : RemoteMetrics).set captureFrames 5 := by
    rw [updateRemoteFromJson, hparse]
    rfl
  rw [hupdate]
  refine ⟨rfl, rfl, ?_⟩
  rintro (⟨-, -, -, -, htime⟩ | hsame)
  · exact absurd htime (by decide)
  · have hcounter := congrArg (RemoteMetrics.counter · captureFrames) hsame
    exact absurd hcounter (by decide)

end RemoteMetrics

end Rtstream
