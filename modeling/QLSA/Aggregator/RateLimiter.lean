import QLSA.Machine.SlidingWindow
import Mathlib.Data.List.Induction
import Mathlib.Algebra.Order.Ring.Rat
import Mathlib.Tactic.Linarith

namespace QLSA
namespace Aggregator

open Machine

/-!
# The rate limiter

Each call belongs to one of three maps and to an address.  A map keeps for an
address a queue of the times of its allowed calls, pruned only when the address
calls again.  A counter that all maps share removes the stale queues of all of
them now and then.  The limiter that is meant keeps the log of all allowed
calls and counts those of the window, `permit`.  The queues stand for that log,
`Tracks`, and so both limiters decide alike.
-/

/-- The window maps `_tx_windows`, `_batch_windows` and `_read_windows`. -/
inductive WindowMap
  | tx
  | batch
  | read
  deriving DecidableEq

/-- A call of `_check_rate` with its reading of the clock in seconds.  Readings
are rationals: taking 60 from a float of at least 60 is exact, and below 60 no
time is before the cutoff. -/
structure RateCall (Ip : Type*) where
  map : WindowMap
  ip : Ip
  now : ℚ
  deriving DecidableEq

def windowSecs : ℚ := 60

/-! ## Sequences of calls -/

section Runs

variable {Ip State Other : Type*} (step : State → RateCall Ip → Bool × State)

def decisions : State → List (RateCall Ip) → List Bool
  | _, [] => []
  | state, call :: rest => (step state call).1 :: decisions (step state call).2 rest

/-- The state after a list of calls. -/
def after (state : State) (calls : List (RateCall Ip)) : State :=
  calls.foldl (fun state call => (step state call).2) state

/-- The calls that were allowed, in order. -/
def allowed : State → List (RateCall Ip) → List (RateCall Ip)
  | _, [] => []
  | state, call :: rest =>
      if (step state call).1 then call :: allowed (step state call).2 rest
      else allowed (step state call).2 rest

/-- Readings of the clock do not decrease. -/
def Clocked (calls : List (RateCall Ip)) : Prop :=
  calls.Pairwise fun earlier later => earlier.now ≤ later.now

variable {step} {other : Other → RateCall Ip → Bool × Other}

theorem Clocked.le_last {front : List (RateCall Ip)} {call : RateCall Ip}
    (clocked : Clocked (front ++ [call])) : ∀ earlier ∈ front, earlier.now ≤ call.now :=
  fun earlier member => (List.pairwise_append.mp clocked).2.2 earlier member call
    (List.mem_singleton_self call)

theorem Clocked.bounded {calls : List (RateCall Ip)} (clocked : Clocked calls) :
    ∃ latest, ∀ call ∈ calls, call.now ≤ latest := by
  rcases List.eq_nil_or_concat' calls with rfl | ⟨front, last, rfl⟩
  · exact ⟨0, fun _ member => absurd member List.not_mem_nil⟩
  · refine ⟨last.now, fun call member => ?_⟩
    rcases List.mem_append.mp member with before | same
    · exact clocked.le_last call before
    · rw [List.mem_singleton.mp same]

theorem decisions_append (state : State) (first second : List (RateCall Ip)) :
    decisions step state (first ++ second) =
      decisions step state first ++ decisions step (after step state first) second := by
  induction first generalizing state with
  | nil => rfl
  | cons call rest ih =>
      rw [List.cons_append, decisions, ih, decisions, List.cons_append, after, after,
        List.foldl_cons]

/-- Which calls are allowed depends on the decisions only. -/
theorem allowed_congr {calls : List (RateCall Ip)} {state : State} {start : Other}
    (same : decisions step state calls = decisions other start calls) :
    allowed step state calls = allowed other start calls := by
  induction calls generalizing state start with
  | nil => rfl
  | cons call rest ih =>
      rw [decisions, decisions, List.cons.injEq] at same
      rw [allowed, allowed, same.1, ih same.2]

end Runs

structure RateState (Ip : Type*) where
  windows : WindowMap → Ip → Option (List ℚ)
  callCount : ℕ

/-- The state in which the module is loaded. -/
def RateState.init {Ip : Type*} : RateState Ip := ⟨fun _ _ => none, 0⟩

/-! ## The limiter -/

section Limiter

variable {Ip : Type*} [DecidableEq Ip]

/-- A queue that is empty or ends before the cutoff. -/
def stale (cutoff : ℚ) (dq : List ℚ) : Bool := dq.getLast?.all (· < cutoff)

def evictStale (windows : Ip → Option (List ℚ)) (cutoff : ℚ) : Ip → Option (List ℚ) :=
  fun ip => (windows ip).filter fun dq => !stale cutoff dq

/-- The shared counter: every so many calls all maps are evicted. -/
def RateState.countCall (evictEvery : ℕ) (state : RateState Ip) (cutoff : ℚ) : RateState Ip :=
  if evictEvery ≤ state.callCount + 1 then
    ⟨fun map => evictStale (state.windows map) cutoff, 0⟩
  else { state with callCount := state.callCount + 1 }

/-- The queue of the address is pruned, and takes the call if it has room. -/
def RateState.enter (limits : WindowMap → ℕ) (state : RateState Ip) (call : RateCall Ip) :
    Bool × RateState Ip :=
  let windows := state.windows call.map
  let dq := ((windows call.ip).getD []).dropWhile (· < call.now - windowSecs)
  if limits call.map ≤ dq.length then
    (false, { state with
      windows := Function.update state.windows call.map
        (Function.update windows call.ip (some dq)) })
  else
    (true, { state with
      windows := Function.update state.windows call.map
        (Function.update windows call.ip (some (dq ++ [call.now]))) })

/-- `_check_rate` -/
def RateState.checkRate (limits : WindowMap → ℕ) (evictEvery : ℕ) (state : RateState Ip)
    (call : RateCall Ip) : Bool × RateState Ip :=
  (state.countCall evictEvery (call.now - windowSecs)).enter limits call

/-- The times of the calls of an address on a map. -/
def timesOf (map : WindowMap) (ip : Ip) (calls : List (RateCall Ip)) : List ℚ :=
  (calls.filter fun call => call.map = map ∧ call.ip = ip).map RateCall.now

/-- Fewer calls of the log than the limit are in the window before a call. -/
def Permits (limits : WindowMap → ℕ) (log : List (RateCall Ip)) (call : RateCall Ip) : Prop :=
  (since (call.now - windowSecs) (timesOf call.map call.ip log)).length < limits call.map

instance (limits : WindowMap → ℕ) (log : List (RateCall Ip)) (call : RateCall Ip) :
    Decidable (Permits limits log call) := inferInstanceAs (Decidable (_ < _))

/-- The limiter by its definition: its state is the log of all allowed calls. -/
def permit (limits : WindowMap → ℕ) (log : List (RateCall Ip)) (call : RateCall Ip) :
    Bool × List (RateCall Ip) :=
  if Permits limits log call then (true, log ++ [call]) else (false, log)

/-- The queues stand for a log of calls that are over at a time. -/
structure Tracks (now : ℚ) (state : RateState Ip) (log : List (RateCall Ip)) : Prop where
  past : ∀ call ∈ log, call.now ≤ now
  covers : ∀ map ip,
    Covers (now - windowSecs) ((state.windows map ip).getD []) (timesOf map ip log)

/-- A step decides like `permit` and keeps the queues up to date. -/
def Exact (limits : WindowMap → ℕ) (step : RateState Ip → RateCall Ip → Bool × RateState Ip) :
    Prop :=
  ∀ state log call, Tracks call.now state log →
    (step state call).1 = (permit limits log call).1 ∧
      Tracks call.now (step state call).2 (permit limits log call).2

/-! ## One call -/

section OneCall

variable {limits : WindowMap → ℕ} {state : RateState Ip} {log : List (RateCall Ip)}
  {call : RateCall Ip} {now later cutoff : ℚ}

theorem timesOf_append (map : WindowMap) (ip : Ip) (first second : List (RateCall Ip)) :
    timesOf map ip (first ++ second) = timesOf map ip first ++ timesOf map ip second := by
  rw [timesOf, List.filter_append, List.map_append, timesOf, timesOf]

theorem timesOf_self (call : RateCall Ip) : timesOf call.map call.ip [call] = [call.now] := by
  simp [timesOf]

theorem timesOf_other {map : WindowMap} {ip : Ip} (other : ¬(call.map = map ∧ call.ip = ip)) :
    timesOf map ip [call] = [] := by
  simp [timesOf, other]

theorem mem_timesOf {map : WindowMap} {ip : Ip} {time : ℚ} (member : time ∈ timesOf map ip log) :
    ∃ call ∈ log, call.now = time := by
  rw [timesOf, List.mem_map] at member
  obtain ⟨call, kept, same⟩ := member
  exact ⟨call, (List.mem_filter.mp kept).1, same⟩

theorem Tracks.init (now : ℚ) : Tracks now (RateState.init : RateState Ip) [] where
  past := fun _ member => absurd member List.not_mem_nil
  covers := fun _ _ => Covers.empty

theorem Tracks.of_le (tracks : Tracks now state log) (le : now ≤ later) :
    Tracks later state log where
  past := fun call member => (tracks.past call member).trans le
  covers := fun map ip => (tracks.covers map ip).of_le (by linarith)

/-- An eviction only drops queues without a time in the window. -/
theorem Tracks.evictStale (tracks : Tracks now state log) (count : ℕ) :
    Tracks now
      (⟨fun map => evictStale (state.windows map) (now - windowSecs), count⟩ : RateState Ip)
      log where
  past := tracks.past
  covers := by
    intro map ip
    have covers := tracks.covers map ip
    cases entry : state.windows map ip with
    | none => simpa [Aggregator.evictStale, entry] using covers
    | some dq =>
        rw [entry, Option.getD_some] at covers
        by_cases old : stale (now - windowSecs) dq = true
        · have dropped := covers.drop fun last isLast => by
            rw [stale, Option.mem_def.mp isLast, Option.all_some] at old
            exact of_decide_eq_true old
          simpa [Aggregator.evictStale, entry, Option.filter_some, old] using dropped
        · simpa [Aggregator.evictStale, entry, Option.filter_some, old] using covers

theorem Tracks.countCall (tracks : Tracks now state log) (evictEvery : ℕ) :
    Tracks now (state.countCall evictEvery (now - windowSecs)) log := by
  rw [RateState.countCall]
  split
  · exact tracks.evictStale 0
  · exact ⟨tracks.past, tracks.covers⟩

/-- One queue is replaced; the log changes at most for its key. -/
theorem Tracks.update (tracks : Tracks call.now state log) {calls : List (RateCall Ip)}
    {dq : List ℚ} (among : calls = [] ∨ calls = [call])
    (covers : Covers (call.now - windowSecs) dq (timesOf call.map call.ip (log ++ calls))) :
    Tracks call.now
      { state with
        windows := Function.update state.windows call.map
          (Function.update (state.windows call.map) call.ip (some dq)) }
      (log ++ calls) where
  past := by
    intro other member
    rcases List.mem_append.mp member with old | new
    · exact tracks.past other old
    · rcases among with rfl | rfl
      · exact absurd new List.not_mem_nil
      · rw [List.mem_singleton.mp new]
  covers := by
    intro map ip
    by_cases key : call.map = map ∧ call.ip = ip
    · obtain ⟨rfl, rfl⟩ := key
      simpa using covers
    · have same : timesOf map ip (log ++ calls) = timesOf map ip log := by
        rcases among with rfl | rfl
        · rw [List.append_nil]
        · rw [timesOf_append, timesOf_other key, List.append_nil]
      have kept : Function.update state.windows call.map
          (Function.update (state.windows call.map) call.ip (some dq)) map ip =
            state.windows map ip := by
        by_cases sameMap : map = call.map
        · subst sameMap
          rw [Function.update_self, Function.update_of_ne fun sameIp => key ⟨rfl, sameIp.symm⟩]
        · rw [Function.update_of_ne sameMap]
      rw [same]
      simpa only [kept] using tracks.covers map ip

/-- Pruned, the queue of the address is the window of the log. -/
theorem Tracks.pruned (tracks : Tracks call.now state log) :
    ((state.windows call.map call.ip).getD []).dropWhile (· < call.now - windowSecs) =
      since (call.now - windowSecs) (timesOf call.map call.ip log) :=
  (tracks.covers call.map call.ip).prune_eq

theorem enter_exact (limits : WindowMap → ℕ) :
    Exact limits (RateState.enter limits : RateState Ip → RateCall Ip → Bool × RateState Ip) := by
  intro state log call tracks
  have covers := (tracks.covers call.map call.ip).prune
  rw [tracks.pruned] at covers
  by_cases room : Permits limits log call
  · have past : ∀ entry ∈ since (call.now - windowSecs) (timesOf call.map call.ip log),
        entry ≤ call.now := by
      intro entry member
      obtain ⟨earlier, logged, rfl⟩ := mem_timesOf (mem_since.mp member).1
      exact tracks.past earlier logged
    have next := tracks.update (.inr rfl)
      (by rw [timesOf_append, timesOf_self]; exact covers.push past)
    have few : ¬limits call.map ≤
        (since (call.now - windowSecs) (timesOf call.map call.ip log)).length := not_le.mpr room
    rw [RateState.enter, tracks.pruned, if_neg few, permit, if_pos room]
    exact ⟨rfl, next⟩
  · have next := tracks.update (.inl rfl) (by rwa [List.append_nil])
    rw [List.append_nil] at next
    rw [RateState.enter, tracks.pruned, if_pos (not_lt.mp room), permit, if_neg room]
    exact ⟨rfl, next⟩

theorem checkRate_exact (limits : WindowMap → ℕ) (evictEvery : ℕ) :
    Exact limits
      (RateState.checkRate limits evictEvery : RateState Ip → RateCall Ip → Bool × RateState Ip) :=
  fun _ log call tracks => enter_exact limits _ log call (tracks.countCall evictEvery)

end OneCall

section Exactness

variable {limits : WindowMap → ℕ} {calls log : List (RateCall Ip)} {now : ℚ}
  {step : RateState Ip → RateCall Ip → Bool × RateState Ip}

/-- The log grows by the allowed calls. -/
theorem after_permit (log calls : List (RateCall Ip)) :
    after (permit limits) log calls = log ++ allowed (permit limits) log calls := by
  induction calls generalizing log with
  | nil => exact (List.append_nil log).symm
  | cons call rest ih =>
      have next := ih (permit limits log call).2
      rw [after, List.foldl_cons, ← after, next, allowed]
      by_cases room : Permits limits log call
      · simp [permit, room]
      · simp [permit, room]

/-- An exact limiter decides like the definition over every sequence of calls. -/
theorem Exact.run (sound : Exact limits step) (clocked : Clocked calls)
    (latest : ∀ call ∈ calls, call.now ≤ now) :
    decisions step RateState.init calls = decisions (permit limits) [] calls ∧
      Tracks now (after step RateState.init calls) (after (permit limits) [] calls) := by
  induction calls using List.reverseRecOn generalizing now with
  | nil => exact ⟨rfl, Tracks.init now⟩
  | append_singleton front call ih =>
      have earlier : Clocked front := (List.pairwise_append.mp clocked).1
      obtain ⟨same, tracks⟩ := ih earlier clocked.le_last
      obtain ⟨decided, next⟩ := sound _ _ call tracks
      have le : call.now ≤ now :=
        latest call (List.mem_append_right front (List.mem_singleton_self call))
      constructor
      · rw [decisions_append, decisions_append, same]
        simp only [decisions, decided]
      · simpa only [after, List.foldl_append, List.foldl_cons, List.foldl_nil]
          using next.of_le le

/-- A call is decided by the calls that were allowed before it. -/
theorem Exact.decision (sound : Exact limits step) {before rest : List (RateCall Ip)}
    {call : RateCall Ip} (clocked : Clocked (before ++ call :: rest)) :
    (step (after step RateState.init before) call).1 = true ↔
      Permits limits (allowed step RateState.init before) call := by
  have parts := List.pairwise_append.mp clocked
  have latest : ∀ earlier ∈ before, earlier.now ≤ call.now := fun earlier member =>
    parts.2.2 earlier member call List.mem_cons_self
  obtain ⟨same, tracks⟩ := sound.run parts.1 latest
  have logged : after (permit limits) [] before = allowed step RateState.init before := by
    rw [after_permit, List.nil_append, allowed_congr same]
  rw [(sound _ _ call tracks).1, logged, permit]
  by_cases room : Permits limits (allowed step RateState.init before) call
  · rw [if_pos room]
    exact iff_of_true rfl room
  · rw [if_neg room]
    exact iff_of_false Bool.false_ne_true room

/-- The calls of a key in a window of the log, which ends anywhere. -/
def inWindow (map : WindowMap) (ip : Ip) (start : ℚ) (log : List (RateCall Ip)) : List ℚ :=
  (timesOf map ip log).filter fun time => start ≤ time ∧ time ≤ start + windowSecs

/-- A window that a call is in has no earlier time that the call does not count. -/
theorem inWindow_le_since {map : WindowMap} {ip : Ip} {start : ℚ}
    (ends : now ≤ start + windowSecs) :
    (inWindow map ip start log).length ≤
      (since (now - windowSecs) (timesOf map ip log)).length := by
  refine (List.monotone_filter_right _ fun time inside => ?_).length_le
  have first := (of_decide_eq_true inside).1
  exact decide_eq_true (by linarith)

theorem permit_inWindow (limits : WindowMap → ℕ) (calls : List (RateCall Ip)) (map : WindowMap)
    (ip : Ip) (start : ℚ) :
    (inWindow map ip start (after (permit limits) [] calls)).length ≤ limits map := by
  induction calls using List.reverseRecOn with
  | nil => exact Nat.zero_le _
  | append_singleton front call ih =>
      rw [after, List.foldl_append, List.foldl_cons, List.foldl_nil, ← after, permit]
      by_cases room : Permits limits (after (permit limits) [] front) call
      · rw [if_pos room, inWindow, timesOf_append, List.filter_append, ← inWindow]
        by_cases key : call.map = map ∧ call.ip = ip
        · obtain ⟨rfl, rfl⟩ := key
          rw [timesOf_self]
          by_cases inside : start ≤ call.now ∧ call.now ≤ start + windowSecs
          · have few := (inWindow_le_since inside.2).trans_lt room
            rw [List.filter_cons_of_pos (by simpa using inside), List.filter_nil,
              List.length_append, List.length_singleton]
            exact few
          · rwa [List.filter_cons_of_neg (by simpa using inside), List.filter_nil, List.append_nil]
        · rwa [timesOf_other key, List.filter_nil, List.append_nil]
      · rwa [if_neg room]

end Exactness

/-- The limiter is an exact sliding window, however often it evicts.  For any calls with a clock
that does not go back: a call is allowed exactly when fewer earlier allowed calls than the limit
lie in the window before it, no window holds more allowed calls than the limit, and every decision
is that of the limiter without evictions. -/
theorem checkRate_sliding_window (limits : WindowMap → ℕ) (evictEvery : ℕ)
    (calls : List (RateCall Ip)) (clocked : Clocked calls) :
    (∀ before call rest, calls = before ++ call :: rest →
      ((RateState.checkRate limits evictEvery
          (after (RateState.checkRate limits evictEvery) RateState.init before) call).1 = true ↔
        Permits limits
          (allowed (RateState.checkRate limits evictEvery) RateState.init before) call)) ∧
      (∀ map ip start,
        (inWindow map ip start
          (allowed (RateState.checkRate limits evictEvery) RateState.init calls)).length ≤
            limits map) ∧
      decisions (RateState.checkRate limits evictEvery) RateState.init calls =
        decisions (RateState.enter limits) RateState.init calls := by
  have sound : Exact limits (RateState.checkRate limits evictEvery : RateState Ip → _) :=
    checkRate_exact limits evictEvery
  obtain ⟨now, latest⟩ := clocked.bounded
  have checked := (sound.run clocked latest).1
  have unevicted := (enter_exact limits).run clocked latest
  refine ⟨?_, ?_, checked.trans unevicted.1.symm⟩
  · rintro before call rest rfl
    exact sound.decision clocked
  · intro map ip start
    have bounded := permit_inWindow limits calls map ip start
    rwa [after_permit, List.nil_append, ← allowed_congr checked] at bounded

end Limiter

/-- Two calls a minute of each address, and an eviction at every second call. -/
theorem checkRate_sliding_window_sample :
    let calls : List (RateCall ℕ) :=
      [⟨.tx, 1, 0⟩, ⟨.tx, 1, 30⟩, ⟨.batch, 2, 45⟩, ⟨.tx, 1, 60⟩, ⟨.tx, 1, 61⟩]
    Clocked calls ∧
      decisions (RateState.checkRate (fun _ => 2) 2) RateState.init calls =
        [true, true, true, false, true] ∧
      (inWindow .tx 1 0
        (allowed (RateState.checkRate (fun _ => 2) 2) RateState.init calls)).length ≤ 2 ∧
      decisions (RateState.checkRate (fun _ => 2) 2) RateState.init calls =
        decisions (RateState.enter fun _ => 2) RateState.init calls := by
  intro calls
  have clocked : Clocked calls := by
    simp only [Clocked, calls, List.pairwise_cons]
    norm_num
  have window := checkRate_sliding_window (fun _ => 2) 2 calls clocked
  exact ⟨clocked, by decide +kernel, window.2.1 .tx 1 0, window.2.2⟩

end Aggregator
end QLSA
