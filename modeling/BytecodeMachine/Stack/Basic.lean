/-!
# Stacks of fixed capacity

All slots of a stack exist from the start, and its size tells how many of them are live. Popping
only lowers the size, so a value that was popped stays in its slot until something is written
there. `toList` shows the live slots from bottom to top.
-/

namespace BytecodeMachine

structure Stack (α : Type) where
  slots : Array α
  size : Nat
  size_le : size ≤ slots.size

inductive StackError where
  | overflow (capacity : Nat)
  | underflow
deriving DecidableEq

namespace Stack

variable {α : Type}

def empty [Inhabited α] (capacity : Nat) : Stack α :=
  ⟨.replicate capacity default, 0, Nat.zero_le _⟩

abbrev capacity (s : Stack α) : Nat := s.slots.size

def toList (s : Stack α) : List α := (s.slots.extract 0 s.size).toList

/-- The slot just above the live ones: what was popped last, if nothing was pushed since. -/
def lastPopped? (s : Stack α) : Option α := s.slots[s.size]?

def get? (s : Stack α) (i : Nat) : Option α := if i < s.size then s.slots[i]? else none

@[inline] def top (s : Stack α) (h : 0 < s.size) : α :=
  have : s.size - 1 < s.slots.size := by
    have := s.size_le
    omega
  s.slots[s.size - 1]

def top? (s : Stack α) : Option α := if h : 0 < s.size then some (s.top h) else none

/-- The highest `n` live elements, bottom to top, or all of them if there are fewer. -/
def topmost (s : Stack α) (n : Nat) : Array α := s.slots.extract (s.size - n) s.size

def topmost? (s : Stack α) (n : Nat) : Option (Array α) :=
  if n ≤ s.size then some (s.topmost n) else none

@[inline] def push (s : Stack α) (a : α) (h : s.size < s.capacity) : Stack α :=
  ⟨s.slots.set s.size a h, s.size + 1, by rwa [Array.size_set]⟩

@[inline] def pop (s : Stack α) : Stack α :=
  ⟨s.slots, s.size - 1, Nat.le_trans (Nat.sub_le _ _) s.size_le⟩

/-- Keeps the lowest `n` elements. -/
def truncate (s : Stack α) (n : Nat) : Stack α :=
  ⟨s.slots, min s.size n, Nat.le_trans (Nat.min_le_left _ _) s.size_le⟩

def set (s : Stack α) (i : Nat) (a : α) (h : i < s.size) : Stack α :=
  ⟨s.slots.set i a (Nat.lt_of_lt_of_le h s.size_le), s.size, by simpa using s.size_le⟩

/-- Resets `n` slots from slot `i` on to the default. -/
def reset [Inhabited α] (slots : Array α) (i : Nat) : Nat → Array α
  | 0 => slots
  | n + 1 => reset (slots.setIfInBounds i default) (i + 1) n

@[simp] theorem size_reset [Inhabited α] (slots : Array α) (i n : Nat) :
    (reset slots i n).size = slots.size := by
  induction n generalizing slots i with
  | zero => rfl
  | succ n ih => simp [reset, ih]

/-- Raises the size to `n`, the slots gained holding the default. -/
def growTo [Inhabited α] (s : Stack α) (n : Nat) (h : n ≤ s.capacity) : Stack α :=
  ⟨reset s.slots s.size (n - s.size), max s.size n, by
    simpa using Nat.max_le.mpr ⟨s.size_le, h⟩⟩

/-- An operation that changes a stack, or leaves it as it is and fails. -/
abbrev Operation (α : Type) := EStateM StackError (Stack α)

def tryPush (a : α) : Operation α Unit := fun s =>
  if h : s.size < s.capacity then .ok () (s.push a h) else .error (.overflow s.capacity) s

def tryPop : Operation α α := fun s =>
  if h : 0 < s.size then .ok (s.top h) s.pop else .error .underflow s

def trySet (i : Nat) (a : α) : Operation α Unit := fun s =>
  if h : i < s.size then .ok () (s.set i a h) else .error .underflow s

def tryGrowTo [Inhabited α] (n : Nat) : Operation α Unit := fun s =>
  if h : n ≤ s.capacity then .ok () (s.growTo n h) else .error (.overflow s.capacity) s

/-- A text with the live elements, the size and the capacity. -/
def text (elementText : α → String) (s : Stack α) : String :=
  "Stack \x7b items: [" ++ ", ".intercalate (s.toList.map elementText) ++
    s!"], len: {s.size}, capacity: {s.capacity} " ++ "\x7d"

end Stack
end BytecodeMachine
