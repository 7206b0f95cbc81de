import BytecodeMachine.Value.Pool

/-!
# Programs

A program is the code that is run first and the pool of constants that code refers to by index.
-/

namespace BytecodeMachine

structure Program where
  code : Code
  constants : Pool

instance : BEq Program where
  beq p q := p.code == q.code && p.constants == q.constants

end BytecodeMachine
