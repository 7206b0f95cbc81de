import BytecodeMachine.Machine.Run
import BytecodeMachine.Proofs.Execution.Parts
import BytecodeMachine.Proofs.Objects.Origin
import BytecodeMachine.Proofs.Relabelling.Operator

/-!
# Relabelled machines

A machine is relabelled by relabelling all values in it: those of the pool and the globals, all
slots of the stack, the closures of the frames and what was printed. Numbers, limits and builtins
stay the same.
-/

namespace BytecodeMachine

namespace Stack

variable {α β : Type}

/-- Applies a function in all slots, the ones above the live elements included. -/
def map (f : α → β) (s : Stack α) : Stack β :=
  ⟨s.slots.map f, s.size, by
    rw [Array.size_map]
    exact s.size_le⟩

variable (f : α → β) (s : Stack α)

@[simp] theorem size_map : (s.map f).size = s.size := rfl

@[simp] theorem capacity_map : (s.map f).capacity = s.capacity := Array.size_map

theorem hasRoom_map : (s.map f).HasRoom ↔ s.HasRoom := by
  rw [HasRoom, capacity_map, size_map]

@[simp] theorem toList_map : (s.map f).toList = s.toList.map f := by
  rw [toList_eq_take, toList_eq_take, map, Array.toList_map, List.map_take]

@[simp] theorem lastPopped?_map : (s.map f).lastPopped? = s.lastPopped?.map f := Array.getElem?_map

@[simp] theorem get?_map (i : Nat) : (s.map f).get? i = (s.get? i).map f := by
  rw [get?_eq_getElem?, get?_eq_getElem?, toList_map, List.getElem?_map]

@[simp] theorem topmost_map (n : Nat) : (s.map f).topmost n = (s.topmost n).map f := by
  rw [← Array.toList_inj, Array.toList_map, topmost_eq_drop, topmost_eq_drop, toList_map,
    List.map_drop, size_map]

@[simp] theorem top?_map : (s.map f).top? = s.top?.map f := by
  rw [top?_eq_getLast?, top?_eq_getLast?, toList_map, List.getLast?_map]

theorem top_map (h : 0 < (s.map f).size) : (s.map f).top h = f (s.top h) := Array.getElem_map ..

theorem push_map (a : α) (h : s.HasRoom) (h' : (s.map f).HasRoom) :
    (s.map f).push (f a) h' = (s.push a h).map f := by
  simp only [push, map, Array.map_set]

theorem set_map (i : Nat) (a : α) (h : i < s.size) :
    (s.map f).set i (f a) h = (s.set i a h).map f := by
  simp only [set, map, Array.map_set]

theorem empty_map [Inhabited α] [Inhabited β] {f : α → β} (hf : f default = default) (n : Nat) :
    (empty n).map f = empty n := by
  simp only [empty, map, Array.map_replicate, hf]

theorem reset_map [Inhabited α] [Inhabited β] {f : α → β} (hf : f default = default)
    (slots : Array α) (i n : Nat) : reset (slots.map f) i n = (reset slots i n).map f := by
  induction n generalizing slots i with
  | zero => rfl
  | succ n ih => rw [reset, reset, ← ih, Array.map_setIfInBounds, hf]

theorem growTo_map [Inhabited α] [Inhabited β] {f : α → β} (hf : f default = default) (n : Nat)
    (h : n ≤ s.capacity) (h' : n ≤ (s.map f).capacity) :
    (s.map f).growTo n h' = (s.growTo n h).map f := by
  simp only [growTo, map, reset_map hf]

end Stack

namespace Relabelling

variable (ρ : Relabelling)

mutual

/-- There is nothing to relabel in a plain value. -/
theorem value_of_plain {v : Value} (h : v.Plain) : ρ.value v = v := by
  cases v with
  | array elements =>
    obtain ⟨elements⟩ := elements
    rw [value, elementList_of_plain fun v hv u hu => h u (.element (List.mem_toArray.mpr hv) hu)]
  | hash entries =>
    obtain ⟨entries⟩ := entries
    rw [value, entryList_of_plain fun k v hv u hu => h u (.entry (List.mem_toArray.mpr hv) hu)]
  | function f => cases h _ .here
  | closure c => cases h _ .here
  | _ => simp

theorem elementList_of_plain : {vs : List Value} → (∀ v ∈ vs, v.Plain) → ρ.elementList vs = vs
  | [], _ => rfl
  | v :: vs, h => by
    rw [elementList, value_of_plain (h v List.mem_cons_self),
      elementList_of_plain fun w hw => h w (List.mem_cons_of_mem v hw)]

theorem entryList_of_plain : {entries : List (Key × Value)} →
    (∀ k v, (k, v) ∈ entries → v.Plain) → ρ.entryList entries = entries
  | [], _ => rfl
  | (k, v) :: entries, h => by
    rw [entryList, value_of_plain (h k v List.mem_cons_self),
      entryList_of_plain fun l w hw => h l w (List.mem_cons_of_mem (k, v) hw)]

end

/-- Objects in a relabelled value are relabelled objects of the value. -/
theorem exists_of_occurs {v w : Value} (h : w.Occurs (ρ.value v)) :
    ∃ u, u.Occurs v ∧ w = ρ.value u := by
  generalize hv : ρ.value v = v' at h
  induction h generalizing v with
  | here => exact ⟨v, .here, hv.symm⟩
  | element member inside ih =>
    cases v with
    | array elements =>
      rw [value_array] at hv
      cases hv
      obtain ⟨x, hx, rfl⟩ := Array.mem_map.mp member
      obtain ⟨u, hu, hw⟩ := ih rfl
      exact ⟨u, .element hx hu, hw⟩
    | _ => simp at hv
  | entry member inside ih =>
    cases v with
    | hash entries =>
      rw [value_hash] at hv
      cases hv
      obtain ⟨⟨k, x⟩, hx, heq⟩ := Array.mem_map.mp member
      cases heq
      obtain ⟨u, hu, hw⟩ := ih rfl
      exact ⟨u, .entry hx hu, hw⟩
    | _ => simp at hv
  | code inside ih =>
    cases v with
    | closure c =>
      rw [value_closure] at hv
      cases hv
      obtain ⟨u, hu, hw⟩ := ih (ρ.value_function c.function)
      exact ⟨u, .code hu, hw⟩
    | _ => simp at hv
  | captured member inside ih =>
    cases v with
    | closure c =>
      rw [value_closure] at hv
      cases hv
      obtain ⟨x, hx, rfl⟩ := Array.mem_map.mp member
      obtain ⟨u, hu, hw⟩ := ih rfl
      exact ⟨u, .captured hx hu, hw⟩
    | _ => simp at hv

theorem identity?_value (v : Value) : (ρ.value v).identity? = v.identity?.map ρ.identity := by
  cases v <;> simp [Value.identity?, function, closure]

theorem given_value {v : Value} (h : v.Given) : (ρ.value v).Given := by
  intro w hw i hi
  obtain ⟨u, hu, rfl⟩ := ρ.exists_of_occurs hw
  rw [identity?_value] at hi
  obtain ⟨j, hj, rfl⟩ := Option.map_eq_some_iff.mp hi
  exact ρ.isGiven j (h u hu j hj)

def pool (constants : Pool) : Pool where
  values := constants.values.map ρ.value
  given v hv := by
    obtain ⟨u, hu, rfl⟩ := Array.mem_map.mp hv
    exact ρ.given_value (constants.given u hu)

def environment (e : Environment) : Environment := { e with constants := ρ.pool e.constants }

def frame (f : Frame) : Frame := { f with closure := ρ.closure f.closure }

def calls (calls : CallStack) : CallStack := ⟨calls.callers.map ρ.frame, ρ.frame calls.top⟩

def machine (m : Machine) : Machine where
  environment := ρ.environment m.environment
  globals := m.globals.map ρ.value
  stack := m.stack.map ρ.value
  calls := ρ.calls m.calls
  numCreated := m.numCreated
  printed := m.printed.map ρ.value
  started := m.started

@[simp] theorem size_pool (constants : Pool) : (ρ.pool constants).size = constants.size :=
  Array.size_map

@[simp] theorem get?_pool (constants : Pool) (k : Nat) :
    (ρ.pool constants).get? k = (constants.get? k).map ρ.value := Array.getElem?_map

@[simp] theorem numSlots_frame (f : Frame) : (ρ.frame f).numSlots = f.numSlots := rfl

@[simp] theorem floor_frame (f : Frame) : (ρ.frame f).floor = f.floor := rfl

@[simp] theorem depth_calls (calls : CallStack) : (ρ.calls calls).depth = calls.depth := by
  simp only [Relabelling.calls, CallStack.depth, Array.size_map]

@[simp] theorem top_calls (calls : CallStack) : (ρ.calls calls).top = ρ.frame calls.top := rfl

theorem push_calls (calls : CallStack) (f : Frame) :
    (ρ.calls calls).push (ρ.frame f) = ρ.calls (calls.push f) := by
  simp only [Relabelling.calls, CallStack.push, Array.map_push]

@[simp] theorem stack_machine (m : Machine) : (ρ.machine m).stack = m.stack.map ρ.value := rfl

@[simp] theorem globals_machine (m : Machine) : (ρ.machine m).globals = m.globals.map ρ.value := rfl

@[simp] theorem printed_machine (m : Machine) : (ρ.machine m).printed = m.printed.map ρ.value := rfl

@[simp] theorem calls_machine (m : Machine) : (ρ.machine m).calls = ρ.calls m.calls := rfl

@[simp] theorem environment_machine (m : Machine) :
    (ρ.machine m).environment = ρ.environment m.environment := rfl

@[simp] theorem floor_machine (m : Machine) : (ρ.machine m).floor = m.floor := rfl

@[simp] theorem numCreated_machine (m : Machine) : (ρ.machine m).numCreated = m.numCreated := rfl

@[simp] theorem started_machine (m : Machine) : (ρ.machine m).started = m.started := rfl

def reply (r : Reply) : Reply := ⟨ρ.value r.value, r.printed.map ρ.value⟩

/-- The native functions do not look at identities or code: on relabelled arguments they answer
with the relabelled reply. -/
def Respects (host : Host) : Prop :=
  ∀ native args, host native (args.map ρ.value) = ρ.reply (host native args)

theorem wrongCount_map (args : List Value) (want : Nat) :
    Native.wrongCount (args.map ρ.value).length want =
      ρ.value (Native.wrongCount args.length want) := by
  rw [List.length_map, Native.wrongCount, value_error]

theorem len_map (args : List Value) :
    Native.len (args.map ρ.value) = ρ.value (Native.len args) := by
  match args with
  | [] => exact ρ.wrongCount_map [] 1
  | [v] => cases v <;> simp [Native.len]
  | v :: w :: args => simpa [Native.len] using ρ.wrongCount_map (v :: w :: args) 1

theorem onArray_map (native : String) {f : Array Value → Value}
    (hf : ∀ elements, f (elements.map ρ.value) = ρ.value (f elements)) (args : List Value) :
    Native.onArray native f (args.map ρ.value) = ρ.value (Native.onArray native f args) := by
  match args with
  | [] => exact ρ.wrongCount_map [] 1
  | [v] =>
    cases v with
    | array elements => simpa [Native.onArray] using hf elements
    | _ => simp [Native.onArray, Native.notAnArray]
  | v :: w :: args => simpa [Native.onArray] using ρ.wrongCount_map (v :: w :: args) 1

theorem getD_map (found : Option Value) :
    (found.map ρ.value).getD .null = ρ.value (found.getD .null) := by
  cases found with
  | none => exact ρ.value_null.symm
  | some v => rfl

theorem first_map (args : List Value) :
    Native.first (args.map ρ.value) = ρ.value (Native.first args) := by
  apply onArray_map
  intro elements
  rw [Array.getElem?_map, getD_map]

theorem last_map (args : List Value) :
    Native.last (args.map ρ.value) = ρ.value (Native.last args) := by
  apply onArray_map
  intro elements
  rw [Array.back?_map, getD_map]

theorem rest_map (args : List Value) :
    Native.rest (args.map ρ.value) = ρ.value (Native.rest args) := by
  apply onArray_map
  intro elements
  have hempty : (elements.map ρ.value).isEmpty = elements.isEmpty := by
    rw [Array.isEmpty, Array.size_map, Array.isEmpty]
  rw [hempty, Array.size_map, ← Array.map_extract]
  cases elements.isEmpty with
  | false => exact (ρ.value_array _).symm
  | true => exact ρ.value_null.symm

theorem push_map (args : List Value) :
    Native.push (args.map ρ.value) = ρ.value (Native.push args) := by
  match args with
  | [] => exact ρ.wrongCount_map [] 2
  | [v] => simpa [Native.push] using ρ.wrongCount_map [v] 2
  | [v, w] => cases v <;> simp [Native.push, Native.notAnArray]
  | u :: v :: w :: args => simpa [Native.push] using ρ.wrongCount_map (u :: v :: w :: args) 2

theorem respects_standard : ρ.Respects Host.standard := by
  intro native
  apply Host.standard_cases (P := fun f => ∀ args, f (args.map ρ.value) = ρ.reply (f args))
  case len => exact fun args => congrArg (Reply.mk · []) (ρ.len_map args)
  case puts => exact fun args => congrArg (Reply.mk · _) ρ.value_null.symm
  case first => exact fun args => congrArg (Reply.mk · []) (ρ.first_map args)
  case last => exact fun args => congrArg (Reply.mk · []) (ρ.last_map args)
  case rest => exact fun args => congrArg (Reply.mk · []) (ρ.rest_map args)
  case push => exact fun args => congrArg (Reply.mk · []) (ρ.push_map args)
  case unknown => exact fun message args => congrArg (Reply.mk · []) (ρ.value_error message).symm

end Relabelling
end BytecodeMachine
