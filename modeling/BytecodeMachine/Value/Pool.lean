import BytecodeMachine.Value.Equality
import BytecodeMachine.Value.Occurrence

/-!
# Pools

A pool is an array of given values, such as the constants of a program. Because no object in it was
created by a run, a run may name the closures that it creates by counting them.
-/

namespace BytecodeMachine

structure Pool where
  values : Array Value
  given : ∀ v ∈ values, v.Given

namespace Pool

def empty : Pool := ⟨#[], by simp⟩

instance : Inhabited Pool := ⟨empty⟩

def size (pool : Pool) : Nat := pool.values.size

def get? (pool : Pool) (index : Nat) : Option Value := pool.values[index]?

theorem given_of_get? {pool : Pool} {index : Nat} {v : Value} (h : pool.get? index = some v) :
    v.Given :=
  pool.given v (Array.mem_of_getElem? h)

def push (pool : Pool) (v : Value) (h : v.Given) : Pool :=
  ⟨pool.values.push v, fun w hw => by
    rcases Array.mem_push.mp hw with hw | rfl
    · exact pool.given w hw
    · exact h⟩

instance : BEq Pool where
  beq p q := Value.sameArrays p.values q.values

end Pool
end BytecodeMachine
