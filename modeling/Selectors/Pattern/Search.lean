import Selectors.Pattern.Automaton

/-!
# Searching

All ways through an automaton are followed at once, character by character, in the order of their
preference. A way that comes to a state where a preferred one has been at the same place ends there:
whatever it could do, the other does before it. In particular no way passes a branching state twice
between two characters, so a repetition never goes on with a round that begins and branches like an empty
one before it.

* `Thread`: a way that has come to some state;
* `Automaton.follow`: the threads of a place, and the one that is accepted there;
* `Automaton.find?`: the first match from a place on.
-/

namespace Selectors

/-! ## Marks -/

/-- Which of the states have been visited. -/
structure Marks where
  marks : Array Bool

namespace Marks

/-- No visits to any of `n` states. -/
def clear (n : Nat) : Marks := ⟨.replicate n false⟩

/-- The state has been visited, or there is no such state. -/
def has (m : Marks) (s : StateId) : Bool := m.marks.getD s true

/-- Visit a state. -/
def add (m : Marks) (s : StateId) : Marks := ⟨m.marks.setIfInBounds s true⟩

/-- How many states are left to visit. -/
def left (m : Marks) : Nat := m.marks.count false

theorem left_add_lt {m : Marks} {s : StateId} (h : m.has s = false) : (m.add s).left < m.left := by
  obtain ⟨a⟩ := m
  simp only [has, Array.getD_eq_getD_getElem?] at h
  have hs : s < a.size := by
    refine Nat.lt_of_not_le fun hn => ?_
    rw [Array.getElem?_eq_none hn] at h
    exact Bool.noConfusion h
  have ha : a[s] = false := by rwa [Array.getElem?_eq_getElem hs] at h
  have hpos : 0 < a.count false := Array.count_pos_iff.mpr (ha ▸ Array.getElem_mem hs)
  have hcount : (a.set s true hs).count false = a.count false - 1 + 0 := by
    rw [Array.count_set, ha]; rfl
  simp only [left, add, Array.setIfInBounds, hs, dif_pos, hcount]
  omega

end Marks

/-! ## Threads -/

/-- A way through an automaton: the state it has come to, the position where it began, and the names of
the groups that took part. -/
structure Thread where
  state : StateId
  start : Nat
  names : List String
  deriving DecidableEq

/-- A match: where it starts and ends, and the names of the groups that took part. -/
structure Found where
  start : Nat
  stop : Nat
  names : List String
  deriving DecidableEq

namespace Automaton

/-- The threads into which a thread goes on without reading a character, at a place that is the start
or the end of the text or not. -/
def goOn (atStart atEnd : Bool) (t : Thread) : State → List Thread
  | .one _ _ | .accept => []
  | .branch nexts => nexts.map fun next => { t with state := next }
  | .textStart next => if atStart then [{ t with state := next }] else []
  | .textEnd next => if atEnd then [{ t with state := next }] else []
  | .note name next => [{ t with state := next, names := name :: t.names }]

/-- Follow the pending threads, the preferred one first, up to the states that read a character. The
threads that came there are added to `reached`, the latest first. An accepted thread is the last one. -/
def follow (a : Automaton) (atStart atEnd : Bool) (marks : Marks) (reached : List Thread) :
    List Thread → List Thread × Option Thread
  | [] => (reached.reverse, none)
  | t :: pending =>
    if h : marks.has t.state then a.follow atStart atEnd marks reached pending
    else
      have := Marks.left_add_lt (Bool.not_eq_true _ ▸ h)
      match a.states[t.state]? with
      | none => a.follow atStart atEnd (marks.add t.state) reached pending
      | some .accept => (reached.reverse, some t)
      | some (.one _ _) => a.follow atStart atEnd (marks.add t.state) (t :: reached) pending
      | some state =>
        a.follow atStart atEnd (marks.add t.state) reached (goOn atStart atEnd t state ++ pending)
termination_by pending => (marks.left, pending.length)

/-- Read a character. -/
def read? (a : Automaton) (c : Char) (t : Thread) : Option Thread :=
  match a.states[t.state]? with
  | some (.one set next) => if set.contains c then some { t with state := next } else none
  | _ => none

/-- The threads that go on from a position, given those that come to it, and the best match so far. Until
there is a match, a thread of the lowest preference starts at every position. -/
def arrive (a : Automaton) (position : Nat) (atEnd : Bool) (pending : List Thread)
    (best : Option Found) : List Thread × Option Found :=
  let pending := if best.isNone then pending ++ [⟨a.start, position, []⟩] else pending
  let (threads, accepted) :=
    a.follow (position == 0) atEnd (.clear a.states.size) [] pending
  (threads, (accepted.map fun t => ⟨t.start, position, t.names⟩).or best)

/-- The first match, given the threads that come to a position and the best match so far. -/
def search (a : Automaton) (position : Nat) (pending : List Thread) (best : Option Found) :
    List Char → Option Found
  | [] => (a.arrive position true pending best).2
  | c :: rest =>
    let (threads, best) := a.arrive position false pending best
    if threads.isEmpty && best.isSome then best
    else a.search (position + 1) (threads.filterMap (a.read? c)) best rest

/-- The first match that starts at a position or behind it, in a text of which `rest` is left there. -/
def find? (a : Automaton) (position : Nat) (rest : List Char) : Option Found :=
  a.search position [] none rest

end Automaton

end Selectors
