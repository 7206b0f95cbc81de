import BytecodeMachine.Value.Basic

/-!
# Frames

A frame is one activation of a closure. Its local slots lie on the operand stack from `base` on,
the arguments first, and its operands lie above them, from `floor` on. Positions are words of 64
bits: a function can ask for so many slots that they end beyond the largest word, and then `floor`
lies below them.
-/

namespace BytecodeMachine

structure Frame where
  closure : Closure Value
  /-- The offset of the next instruction. -/
  ip : Nat
  base : Nat

namespace Frame

def enter (closure : Closure Value) (base : Nat) : Frame := ⟨closure, 0, base⟩

@[inline] def code (f : Frame) : Code := f.closure.function.code

@[inline] def numSlots (f : Frame) : Nat := f.closure.function.numSlots

/-- The lowest stack position above the local slots, by a sum of words, which wraps. -/
@[inline] def floor (f : Frame) : Nat := (f.base + f.numSlots) % UInt64.size

/-- The local slots end at a word. -/
def NoWrap (f : Frame) : Prop := f.base + f.numSlots < UInt64.size

/-- The same position if sums of words are checked, which refuse to wrap. -/
def floor? (f : Frame) : Option Nat :=
  if f.base + f.numSlots < UInt64.size then some f.floor else none

theorem floor_eq {f : Frame} (h : f.NoWrap) : f.floor = f.base + f.numSlots := Nat.mod_eq_of_lt h

end Frame

/-- The frames of a run. There is always a running one. -/
structure CallStack where
  /-- The suspended callers, outermost first. -/
  callers : Array Frame
  top : Frame

namespace CallStack

@[inline] def depth (calls : CallStack) : Nat := calls.callers.size + 1

/-- All frames, outermost first. -/
def frames (calls : CallStack) : List Frame := calls.callers.toList ++ [calls.top]

def push (calls : CallStack) (f : Frame) : CallStack := ⟨calls.callers.push calls.top, f⟩

end CallStack
end BytecodeMachine
