import BytecodeMachine.Proofs.Execution.Parts

/-!
# Stacks as bounded lists with memory

Seen from outside, a stack is a list of bounded length that remembers what was last written to each
position, also to one that is not in the list any more. Whatever is done to a stack, it answers as
the list does, and where the list refuses, the stack stays as it is in all its slots.
-/

namespace BytecodeMachine.Stack

variable {α : Type}

/-- Something to be done to a stack. -/
inductive Action (α : Type) where
  | push (a : α)
  | pop
  | growTo (n : Nat)
  | truncate (n : Nat)
  | set (i : Nat) (a : α)

/-- The elements of a list and what was written to which position so far, latest first. -/
structure Remembering (α : Type) where
  live : List α
  written : List (Nat × α)

section

variable [Inhabited α]

/-- Does the action. The only answer is the element that was popped. -/
def Action.perform : Action α → Operation α (Option α)
  | push a => do
    tryPush a
    return none
  | pop => some <$> tryPop
  | growTo n => do
    tryGrowTo n
    return none
  | truncate n => do
    modify (·.truncate n)
    return none
  | set i a => do
    trySet i a
    return none

/-- The stack as the action leaves it, even if it fails. -/
def act (s : Stack α) (action : Action α) : Stack α :=
  match action.perform s with
  | .ok _ s' | .error _ s' => s'

/-- The stack after some actions. -/
def after (s : Stack α) : List (Action α) → Stack α
  | [] => s
  | action :: actions => (s.act action).after actions

section Perform

variable {s : Stack α} {a : α} {i n : Nat}

theorem perform_push (room : s.HasRoom) :
    (Action.push a).perform s = .ok none (s.push a room) := by
  have htry : tryPush a s = .ok ⟨⟩ (s.push a room) := dif_pos room
  simp only [Action.perform, bind, EStateM.bind, htry]
  rfl

theorem perform_push_of_full (full : ¬s.HasRoom) :
    (Action.push a).perform s = .error (.overflow s.capacity) s := by
  have htry : tryPush a s = .error (.overflow s.capacity) s := dif_neg full
  simp only [Action.perform, bind, EStateM.bind, htry]

theorem perform_pop (htop : s.top? = some a) : Action.pop.perform s = .ok (some a) (s.drop 1) := by
  by_cases hpos : 0 < s.size
  · have htry : tryPop s = .ok (s.top hpos) s.pop := dif_pos hpos
    rw [top?, dif_pos hpos] at htop
    cases htop
    simp only [Action.perform, Functor.map, EStateM.map, htry, pop_eq_drop]
  · rw [top?, dif_neg hpos] at htop
    cases htop

theorem perform_pop_of_empty (htop : s.top? = none) :
    Action.pop.perform s = .error .underflow s := by
  by_cases hpos : 0 < s.size
  · rw [top?, dif_pos hpos] at htop
    cases htop
  · have htry : tryPop s = .error .underflow s := dif_neg hpos
    simp only [Action.perform, Functor.map, EStateM.map, htry]

theorem perform_growTo (room : n ≤ s.capacity) :
    (Action.growTo n).perform s = .ok none (s.growTo n room) := by
  have htry : tryGrowTo n s = .ok ⟨⟩ (s.growTo n room) := dif_pos room
  simp only [Action.perform, bind, EStateM.bind, htry]
  rfl

theorem perform_growTo_of_lt (lacking : ¬n ≤ s.capacity) :
    (Action.growTo n).perform s = .error (.overflow s.capacity) s := by
  have htry : tryGrowTo n s = .error (.overflow s.capacity) s := dif_neg lacking
  simp only [Action.perform, bind, EStateM.bind, htry]

theorem perform_truncate : (Action.truncate n).perform s = .ok none (s.truncate n) := rfl

theorem perform_set (live : i < s.size) :
    (Action.set i a).perform s = .ok none (s.set i a live) := by
  have htry : trySet i a s = .ok ⟨⟩ (s.set i a live) := dif_pos live
  simp only [Action.perform, bind, EStateM.bind, htry]
  rfl

theorem perform_set_of_le (dead : ¬i < s.size) :
    (Action.set i a).perform s = .error .underflow s := by
  have htry : trySet i a s = .error .underflow s := dif_neg dead
  simp only [Action.perform, bind, EStateM.bind, htry]

end Perform

theorem act_of_ok {s s' : Stack α} {action : Action α} {answer : Option α}
    (h : action.perform s = .ok answer s') : s.act action = s' := by
  rw [act, h]

theorem act_of_error {s s' : Stack α} {action : Action α} {e : StackError}
    (h : action.perform s = .error e s') : s.act action = s' := by
  rw [act, h]

namespace Remembering

def empty : Remembering α := ⟨[], []⟩

/-- What was last written to a position, or the default. -/
def last (l : Remembering α) (k : Nat) : α := (l.written.lookup k).getD default

/-- What the action answers on a list of at most `capacity` elements and what it makes of the list,
or why it fails. -/
def perform (capacity : Nat) (l : Remembering α) :
    Action α → Except StackError (Option α × Remembering α)
  | .push a =>
    if l.live.length = capacity then .error (.overflow capacity)
    else .ok (none, ⟨l.live ++ [a], (l.live.length, a) :: l.written⟩)
  | .pop =>
    match l.live.getLast? with
    | none => .error .underflow
    | some a => .ok (some a, { l with live := l.live.dropLast })
  | .growTo n =>
    if capacity < n then .error (.overflow capacity)
    else
      let gained := n - l.live.length
      .ok (none, ⟨l.live ++ .replicate gained default,
        (List.range' l.live.length gained).map (·, default) ++ l.written⟩)
  | .truncate n => .ok (none, { l with live := l.live.take n })
  | .set i a =>
    if i < l.live.length then .ok (none, ⟨l.live.set i a, (i, a) :: l.written⟩)
    else .error .underflow

/-- The list after some actions, of which those that fail change nothing. -/
def after (capacity : Nat) (l : Remembering α) : List (Action α) → Remembering α
  | [] => l
  | action :: actions =>
    match l.perform capacity action with
    | .ok (_, l') => after capacity l' actions
    | .error _ => after capacity l actions

theorem last_cons (live live' : List α) (written : List (Nat × α)) (i k : Nat) (a : α) :
    last ⟨live, (i, a) :: written⟩ k = if i = k then a else last ⟨live', written⟩ k := by
  unfold last
  rw [List.lookup_cons]
  by_cases h : i = k
  · simp [h]
  · have hne : (k == i) = false := beq_false_of_ne (Ne.symm h)
    simp [h, hne]

theorem last_gained (live live' : List α) (written : List (Nat × α)) (i n k : Nat) :
    last ⟨live, (List.range' i n).map (·, default) ++ written⟩ k =
      if i ≤ k ∧ k < i + n then default else last ⟨live', written⟩ k := by
  induction n generalizing i with
  | zero =>
    rw [if_neg (by omega)]
    rfl
  | succ n ih =>
    rw [List.range'_succ, List.map_cons, List.cons_append, last_cons _ live, ih]
    by_cases h : i = k
    · rw [if_pos h, if_pos (by omega)]
    · rw [if_neg h]
      congr 1
      simp only [eq_iff_iff]
      omega

end Remembering

/-- The stack holds the list and remembers what the list does. -/
structure Refines (s : Stack α) (capacity : Nat) (l : Remembering α) : Prop where
  toList_eq : s.toList = l.live
  capacity_eq : s.capacity = capacity
  slots_eq : ∀ k < capacity, s.slots[k]? = some (l.last k)

namespace Refines

variable {s s' : Stack α} {capacity : Nat} {l l' : Remembering α} {action : Action α}
  {answer : Option α} {e : StackError}

theorem size_eq (h : s.Refines capacity l) : s.size = l.live.length := by
  rw [← h.toList_eq, length_toList]

theorem length_le (h : s.Refines capacity l) : l.live.length ≤ capacity := by
  rw [← h.size_eq, ← h.capacity_eq]
  exact s.size_le

theorem empty (capacity : Nat) : (empty capacity : Stack α).Refines capacity .empty where
  toList_eq := toList_empty capacity
  capacity_eq := Array.size_replicate
  slots_eq k hk := by
    rw [Stack.empty, Array.getElem?_replicate, if_pos hk]
    rfl

theorem push (h : s.Refines capacity l) (a : α) (room : s.HasRoom) :
    (s.push a room).Refines capacity ⟨l.live ++ [a], (l.live.length, a) :: l.written⟩ where
  toList_eq := by rw [toList_push, h.toList_eq]
  capacity_eq := (capacity_push s a room).trans h.capacity_eq
  slots_eq k hk := by
    rw [Remembering.last_cons _ l.live, ← h.size_eq, Stack.push, Array.getElem?_set, h.slots_eq k hk]
    by_cases hk' : s.size = k <;> simp [hk']

theorem truncate (h : s.Refines capacity l) (n : Nat) :
    (s.truncate n).Refines capacity { l with live := l.live.take n } where
  toList_eq := by rw [toList_truncate, h.toList_eq]
  capacity_eq := h.capacity_eq
  slots_eq := h.slots_eq

theorem set (h : s.Refines capacity l) (i : Nat) (a : α) (live : i < s.size) :
    (s.set i a live).Refines capacity ⟨l.live.set i a, (i, a) :: l.written⟩ where
  toList_eq := by rw [toList_set, h.toList_eq]
  capacity_eq := (capacity_set s i a live).trans h.capacity_eq
  slots_eq k hk := by
    rw [Remembering.last_cons _ l.live, Stack.set, Array.getElem?_set, h.slots_eq k hk]
    by_cases hk' : i = k <;> simp [hk']

theorem growTo (h : s.Refines capacity l) (n : Nat) (room : n ≤ s.capacity) :
    (s.growTo n room).Refines capacity
      ⟨l.live ++ .replicate (n - l.live.length) default,
        (List.range' l.live.length (n - l.live.length)).map (·, default) ++ l.written⟩ where
  toList_eq := by rw [toList_growTo _ _ room, h.toList_eq, h.size_eq]
  capacity_eq := (capacity_growTo s n room).trans h.capacity_eq
  slots_eq k hk := by
    have hslots : s.slots.size = capacity := h.capacity_eq
    rw [Remembering.last_gained _ l.live, ← h.size_eq, Stack.growTo, getElem?_reset, h.slots_eq k hk]
    by_cases hk' : s.size ≤ k ∧ k < s.size + (n - s.size)
    · rw [if_pos hk', if_pos ⟨hk'.1, hk'.2, by omega⟩]
    · rw [if_neg hk', if_neg fun h' => hk' ⟨h'.1, h'.2.1⟩]

/-- An action that the list allows has the same answer and the same effect on the stack. -/
theorem perform_eq_ok (h : s.Refines capacity l)
    (done : l.perform capacity action = .ok (answer, l')) :
    ∃ s', action.perform s = .ok answer s' ∧ s'.Refines capacity l' := by
  have hsize := h.size_eq
  have hle := h.length_le
  have hcapacity := h.capacity_eq
  cases action with
  | push a =>
    rw [Remembering.perform] at done
    split at done
    · cases done
    · cases done
      have room : s.HasRoom := by
        rw [HasRoom]
        omega
      exact ⟨_, perform_push room, h.push a room⟩
  | pop =>
    rw [Remembering.perform] at done
    split at done
    · cases done
    · next a hlast =>
      cases done
      rw [← h.toList_eq, ← top?_eq_getLast?] at hlast
      refine ⟨_, perform_pop hlast, ?_⟩
      have hdrop := h.truncate (s.size - 1)
      rwa [hsize, ← List.dropLast_eq_take, ← hsize] at hdrop
  | growTo n =>
    rw [Remembering.perform] at done
    split at done
    · cases done
    · cases done
      have room : n ≤ s.capacity := by omega
      exact ⟨_, perform_growTo room, h.growTo n room⟩
  | truncate n =>
    cases done
    exact ⟨_, perform_truncate, h.truncate n⟩
  | set i a =>
    rw [Remembering.perform] at done
    split at done
    · next hlive =>
      cases done
      rw [← hsize] at hlive
      exact ⟨_, perform_set hlive, h.set i a hlive⟩
    · cases done

/-- An action that the list refuses fails for the same reason and changes nothing. -/
theorem perform_eq_error (h : s.Refines capacity l)
    (refused : l.perform capacity action = .error e) : action.perform s = .error e s := by
  have hsize := h.size_eq
  have hcapacity := h.capacity_eq
  cases action with
  | push a =>
    rw [Remembering.perform] at refused
    split at refused
    · cases refused
      rw [← hcapacity]
      refine perform_push_of_full ?_
      rw [HasRoom]
      omega
    · cases refused
  | pop =>
    rw [Remembering.perform] at refused
    split at refused
    · next hlast =>
      cases refused
      rw [← h.toList_eq, ← top?_eq_getLast?] at hlast
      exact perform_pop_of_empty hlast
    · cases refused
  | growTo n =>
    rw [Remembering.perform] at refused
    split at refused
    · cases refused
      rw [← hcapacity]
      exact perform_growTo_of_lt (by omega)
    · cases refused
  | truncate n => cases refused
  | set i a =>
    rw [Remembering.perform] at refused
    split at refused
    · cases refused
    · next hdead =>
      cases refused
      rw [← hsize] at hdead
      exact perform_set_of_le hdead

theorem after (h : s.Refines capacity l) (actions : List (Action α)) :
    (s.after actions).Refines capacity (l.after capacity actions) := by
  induction actions generalizing s l with
  | nil => exact h
  | cons action actions ih =>
    rw [Stack.after, Remembering.after]
    cases hl : l.perform capacity action with
    | ok result =>
      obtain ⟨answer, l'⟩ := result
      obtain ⟨s', hs, h'⟩ := h.perform_eq_ok hl
      rw [act_of_ok hs]
      exact ih h'
    | error e =>
      rw [act_of_error (h.perform_eq_error hl)]
      exact ih h

theorem lastPopped?_eq (h : s.Refines capacity l) : s.lastPopped? =
    if l.live.length = capacity then none else some (l.last l.live.length) := by
  have hle := h.length_le
  have hcapacity := h.capacity_eq
  rw [lastPopped?, h.size_eq]
  split
  · next hfull => exact Array.getElem?_eq_none (Nat.le_of_eq (hcapacity.trans hfull.symm))
  · exact h.slots_eq _ (by omega)

theorem topmost?_eq (h : s.Refines capacity l) (n : Nat) :
    (s.topmost? n).map Array.toList =
      if n ≤ l.live.length then some (l.live.drop (l.live.length - n)) else none := by
  rw [topmost?, h.size_eq]
  split
  · rw [Option.map_some, topmost_eq_drop, h.toList_eq, h.size_eq]
  · rfl

end Refines

/-- An action writes to no slot above the stack that it leaves. -/
theorem slots_act (s : Stack α) (action : Action α) {k : Nat} (above : (s.act action).size ≤ k) :
    (s.act action).slots[k]? = s.slots[k]? := by
  cases action with
  | push a =>
    by_cases room : s.HasRoom
    · rw [act_of_ok (perform_push room)] at above ⊢
      rw [size_push] at above
      exact Array.getElem?_set_ne room (by omega)
    · rw [act_of_error (perform_push_of_full room)]
  | pop =>
    cases htop : s.top? with
    | none => rw [act_of_error (perform_pop_of_empty htop)]
    | some a => rw [act_of_ok (perform_pop htop), slots_drop]
  | growTo n =>
    by_cases room : n ≤ s.capacity
    · rw [act_of_ok (perform_growTo room)] at above ⊢
      rw [size_growTo] at above
      rw [growTo, getElem?_reset, if_neg (by omega)]
    · rw [act_of_error (perform_growTo_of_lt room)]
  | truncate n => rfl
  | set i a =>
    by_cases live : i < s.size
    · rw [act_of_ok (perform_set live)] at above ⊢
      rw [size_set] at above
      exact Array.getElem?_set_ne (Nat.lt_of_lt_of_le live s.size_le) (by omega)
    · rw [act_of_error (perform_set_of_le live)]

/-- What lies above the stack stays there as long as the stack does not rise. -/
theorem slots_after {s : Stack α} {actions : List (Action α)} {k : Nat}
    (above : ∀ first, first <+: actions → (s.after first).size ≤ k) :
    (s.after actions).slots[k]? = s.slots[k]? := by
  induction actions generalizing s with
  | nil => rfl
  | cons action actions ih =>
    have hrest : ∀ first, first <+: actions → ((s.act action).after first).size ≤ k :=
      fun first h => above (action :: first) (List.cons_prefix_cons.mpr ⟨rfl, h⟩)
    rw [Stack.after, ih hrest]
    exact slots_act s action (hrest [] List.nil_prefix)

/-- A stack looks and answers like a list of at most `capacity` elements. -/
structure LooksLike (s : Stack α) (capacity : Nat) (l : Remembering α) : Prop where
  toList_eq : s.toList = l.live
  size_eq : s.size = l.live.length
  size_le : s.size ≤ capacity
  capacity_eq : s.capacity = capacity
  get?_eq (i : Nat) : s.get? i = l.live[i]?
  top?_eq : s.top? = l.live.getLast?
  topmost?_eq (n : Nat) : (s.topmost? n).map Array.toList =
    if n ≤ l.live.length then some (l.live.drop (l.live.length - n)) else none
  lastPopped?_eq : s.lastPopped? =
    if l.live.length = capacity then none else some (l.last l.live.length)
  succeeds (action : Action α) (answer : Option α) (l' : Remembering α) :
    l.perform capacity action = .ok (answer, l') →
    ∃ s', action.perform s = .ok answer s' ∧ s'.toList = l'.live
  /-- An action that fails changes nothing, not even in slots above the stack. -/
  fails (action : Action α) (e : StackError) :
    l.perform capacity action = .error e → action.perform s = .error e s
  /-- What was popped can be seen whenever the stack is as high again and was never higher. -/
  popped (a : α) (s' : Stack α) (actions : List (Action α)) :
    Action.pop.perform s = .ok (some a) s' →
    (∀ first, first <+: actions → (s'.after first).size ≤ s'.size) →
    (s'.after actions).size = s'.size → (s'.after actions).lastPopped? = some a

theorem lastPopped?_of_pop {s s' : Stack α} {a : α}
    (h : Action.pop.perform s = .ok (some a) s') : s'.lastPopped? = some a := by
  cases htop : s.top? with
  | none => cases (perform_pop_of_empty htop).symm.trans h
  | some b =>
    cases (perform_pop htop).symm.trans h
    by_cases hpos : 0 < s.size
    · rw [lastPopped?_drop_one hpos, htop]
    · rw [top?, dif_neg hpos] at htop
      cases htop

theorem Refines.looksLike {s : Stack α} {capacity : Nat} {l : Remembering α}
    (h : s.Refines capacity l) : s.LooksLike capacity l where
  toList_eq := h.toList_eq
  size_eq := h.size_eq
  size_le := h.size_eq ▸ h.length_le
  capacity_eq := h.capacity_eq
  get?_eq i := by rw [get?_eq_getElem?, h.toList_eq]
  top?_eq := by rw [top?_eq_getLast?, h.toList_eq]
  topmost?_eq := h.topmost?_eq
  lastPopped?_eq := h.lastPopped?_eq
  succeeds action answer l' done := by
    obtain ⟨s', hs', h'⟩ := h.perform_eq_ok done
    exact ⟨s', hs', h'.toList_eq⟩
  fails action e refused := h.perform_eq_error refused
  popped a s' actions hpop above size := by
    rw [lastPopped?, size, slots_after above]
    exact lastPopped?_of_pop hpop

/-- Whatever is done to an empty stack, it looks and answers like the list to which the same is
done. -/
theorem looksLike_after (capacity : Nat) (actions : List (Action α)) :
    ((empty capacity).after actions).LooksLike capacity
      (Remembering.empty.after capacity actions) :=
  ((Refines.empty capacity).after actions).looksLike

example : ((empty 4 : Stack Nat).after [.push 5, .push 6, .pop, .pop, .push 7]).lastPopped? =
    some 6 := by decide

end

end BytecodeMachine.Stack
