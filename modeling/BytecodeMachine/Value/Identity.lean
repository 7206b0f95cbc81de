/-!
# Identities

Functions and closures are objects: two of them are the same exactly if their identities agree,
however often they were copied. An identity also tells where its object comes from, so a closure
that a run creates is never taken for an object that was there before.
-/

namespace BytecodeMachine

inductive Identity where
  /-- The code that a run starts with. -/
  | main
  /-- An object that was there before the run. -/
  | given (n : Nat)
  /-- The closure that a run created after `n` others. -/
  | created (n : Nat)
deriving DecidableEq

namespace Identity

def IsGiven (i : Identity) : Prop := ∃ n, i = given n

theorem isGiven_given (n : Nat) : (given n).IsGiven := ⟨n, rfl⟩

theorem not_isGiven_created (n : Nat) : ¬(created n).IsGiven := nofun

theorem not_isGiven_main : ¬main.IsGiven := nofun

def text : Identity → String
  | main => "main"
  | given n => s!"given {n}"
  | created n => s!"created {n}"

instance : ToString Identity := ⟨text⟩

end Identity
end BytecodeMachine
