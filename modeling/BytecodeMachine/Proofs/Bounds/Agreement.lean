import BytecodeMachine.Proofs.Bounds.Checked
import BytecodeMachine.Proofs.Execution.Failure

/-!
# Checked and unchecked parts agree

On a machine whose stack and frames are in order and small enough, no operation of an instruction is
out of range: its checked parts have the results of the unchecked ones.
-/

namespace BytecodeMachine

open Word

namespace Word

variable {α : Type} {a b start stop : Nat} {xs : Array α}

theorem add_eq (h : a + b < 2 ^ 64) : add a b = some (a + b) := if_pos h

theorem sub_eq (h : b ≤ a) : sub a b = some (a - b) := if_pos h

theorem slice_eq (h : start ≤ stop) (h' : stop ≤ xs.size) :
    slice xs start stop = some (xs.extract start stop) := if_pos ⟨h, h'⟩

end Word

theorem Arithmetic.checkedValues_eq (op : Arithmetic) (l r : Value) :
    op.checkedValues l r = some (op.values l r) := by
  have hintegers (j k : Int64) : op.checkedIntegers j k = some (op.integers j k) := by
    cases op with
    | div =>
      by_cases hk : k = 0
      · simp [checkedIntegers, integers, hk]
      · simp [checkedIntegers, integers, Word.div, hk]
    | _ => rfl
  cases l with
  | integer j =>
    cases r with
    | integer k =>
      simp [checkedValues, hintegers, values]
    | _ => rfl
  | _ => rfl

theorem Value.mapM_inTwos (vs : List Value) :
    (inTwos vs).mapM (fun piece => do return (← piece[0]?, ← piece[1]?)) = some (pairUp vs) := by
  induction vs using pairUp.induct with
  | case1 key value rest ih =>
    rw [inTwos, List.mapM_cons, ih]
    rfl
  | case2 vs h =>
    match vs with
    | [] => rfl
    | [v] => rfl
    | key :: value :: rest => exact absurd rfl (h key value rest)

theorem Value.checkedHashOf_eq (operands : Array Value) :
    checkedHashOf operands = some (hashOf operands) := by
  rw [checkedHashOf, hashOf, mapM_inTwos]
  split
  · cases htable : Table.ofPairs (pairUp operands.toList) <;> simp [htable]
  · rfl

namespace Native

theorem checkedOne_eq {f : List Value → Value}
    (wrong : ∀ args : List Value, args.length ≠ 1 → f args = wrongCount args.length 1)
    (args : List Value) : checkedOne f args = some (f args) := by
  rw [checkedOne]
  by_cases count : args.length = 1
  · obtain ⟨v, rfl⟩ := List.length_eq_one_iff.mp count
    rfl
  · rw [if_neg count, wrong args count]

theorem len_of_length_ne (args : List Value) (h : args.length ≠ 1) :
    len args = wrongCount args.length 1 := by
  match args with
  | [] => rfl
  | [v] => exact absurd rfl h
  | v :: w :: rest => cases v <;> rfl

theorem onArray_of_length_ne {native : String} {f : Array Value → Value} (args : List Value)
    (h : args.length ≠ 1) : onArray native f args = wrongCount args.length 1 := by
  match args with
  | [] => rfl
  | [v] => exact absurd rfl h
  | v :: w :: rest => cases v <;> rfl

theorem checkedPush_eq (args : List Value) : checkedPush args = some (push args) := by
  rw [checkedPush]
  match args with
  | [] => rfl
  | [v] => cases v <;> rfl
  | [v, w] => cases v <;> rfl
  | u :: v :: w :: rest =>
    have hlength : (u :: v :: w :: rest).length ≠ 2 := by simp
    rw [if_neg hlength]
    cases u <;> rfl

theorem checked_eq_map :
    checked = standard.map fun entry => (entry.1, fun args => some (entry.2 args)) := by
  simp only [checked, standard, List.map_cons, List.map_nil, checkedPush_eq,
    checkedOne_eq len_of_length_ne, checkedOne_eq onArray_of_length_ne, first, last, rest]
  rfl

end Native

theorem Host.checked_eq (native : String) (args : List Value) :
    checked native args = some (standard native args) := by
  rw [checked, standard, Native.checked_eq_map,
    Table.lookup_map (fun f args => some (f args)) Native.standard]
  cases Native.standard.lookup native <;> rfl

/-- Stack and frames are in order, and small enough for numbers of 64 bits. -/
structure Machine.Bounded (m : Machine) : Prop where
  capacity_lt : m.stack.capacity < 2 ^ 63
  noWrap : m.calls.top.NoWrap
  floor_le : m.floor ≤ m.stack.capacity
  depth_le : m.calls.depth ≤ m.stack.capacity + 1
  returns : m.Returns
  closures : ∀ c, .closure c ∈ m.stack.slots → c.function.numSlots < 2 ^ 32
  host_eq : m.environment.host = Host.standard

theorem Machine.Bounded.drop {m : Machine} (h : m.Bounded) (n : Nat) :
    Bounded { m with stack := m.stack.drop n } :=
  ⟨h.capacity_lt, h.noWrap, h.floor_le, h.depth_le, h.returns, h.closures, h.host_eq⟩

theorem Machine.Bounded.jump {m : Machine} (h : m.Bounded) (offset : Nat) :
    (m.jump offset).Bounded :=
  ⟨h.capacity_lt, h.noWrap, h.floor_le, h.depth_le, h.returns, h.closures, h.host_eq⟩

theorem Stack.growTo_of_le {α : Type} [Inhabited α] {s : Stack α} {n : Nat} (h : n ≤ s.capacity)
    (hle : n ≤ s.size) : s.growTo n h = s := by
  have hslots : reset s.slots s.size (n - s.size) = s.slots := by
    rw [Nat.sub_eq_zero_of_le hle]
    rfl
  have hsize : max s.size n = s.size := Nat.max_eq_left hle
  cases s
  simp only [growTo, mk.injEq]
  exact ⟨hslots, hsize⟩

theorem Stack.mem_slots_of_get? {α : Type} {s : Stack α} {k : Nat} {a : α}
    (h : s.get? k = some a) : a ∈ s.slots := by
  rw [get?] at h
  split at h
  · exact Array.mem_of_getElem? h
  · cases h

theorem Stack.getElem?_live {α : Type} (s : Stack α) (k : Nat) :
    (s.slots.extract 0 s.size)[k]? = s.get? k := by
  rw [get?_eq_getElem?, toList, Array.getElem?_toList]

theorem CallStack.sub_length_frames (calls : CallStack) :
    sub calls.frames.length 1 = some calls.callers.size := by
  rw [sub_eq (by simp [frames])]
  simp [frames]

theorem CallStack.getElem?_frames (calls : CallStack) :
    calls.frames[calls.callers.size]? = some calls.top := by
  simp [frames]

namespace Checked

variable {α β : Type} {x : Checked α} {f : α → Checked β} {y : Exec α} {g : α → Exec β}
  {m m' : Machine}

/-- The checked part has a result, and it is that of the unchecked one. -/
def Agrees (x : Checked α) (y : Exec α) (m : Machine) : Prop := x m = some (y m)

theorem bind_of_ok {a : α} (h : x m = some (.ok a m')) : (x >>= f) m = f a m' := by
  simp only [Bind.bind, h]

theorem bind_of_error {fault : Fault} (h : x m = some (.error fault m')) :
    (x >>= f) m = some (.error fault m') := by
  simp only [Bind.bind, h]

theorem Agrees.bind (h : x.Agrees y m)
    (hf : ∀ a m', y m = .ok a m' → (f a).Agrees (g a) m') : (x >>= f).Agrees (y >>= g) m := by
  have hx : x m = some (y m) := h
  change _ = some (EStateM.bind y g m)
  simp only [Bind.bind, hx, EStateM.bind]
  cases hy : y m with
  | ok a m' => exact hf a m' hy
  | error fault m' => rfl

theorem Agrees.map (h : x.Agrees y m) (k : α → β) : (k <$> x).Agrees (k <$> y) m := by
  have hx : x m = some (y m) := h
  change (x >>= fun a => pure (k a)) m = some (EStateM.map k y m)
  simp only [Bind.bind, hx, EStateM.map]
  cases y m <;> rfl

/-- What only looks something up does not show. -/
theorem Agrees.of_ok {a : α} {z : Exec β} (h : x m = some (.ok a m))
    (hf : (f a).Agrees z m) : (x >>= f).Agrees z m :=
  (bind_of_ok h).trans hf

theorem Agrees.of_observe {k : Machine → α} {z : Checked β} (h : z.Agrees (g (k m)) m) :
    z.Agrees (Exec.observe k >>= g) m := h

theorem agrees_of_eq {r : EStateM.Result Fault Machine α} (hx : x m = some r) (hy : y m = r) :
    x.Agrees y m :=
  hx.trans (congrArg some hy.symm)

theorem agrees_fail {fault : Fault} (h : y m = .error fault m) : (fail fault).Agrees y m :=
  agrees_of_eq rfl h

theorem lookup_eq {o : Option α} {a : α} (h : o = some a) :
    (liftM o : Checked α) m = some (.ok a m) := by
  subst h
  rfl

theorem observe_eq (k : Machine → α) : observe k m = some (.ok (k m) m) := rfl

theorem frame_eq : frame m = some (.ok m.calls.top m) := by
  rw [frame, bind_of_ok (observe_eq _), bind_of_ok (lookup_eq m.calls.sub_length_frames)]
  exact lookup_eq m.calls.getElem?_frames

theorem floor_eq (h : m.Bounded) : floor m = some (.ok m.floor m) := by
  have hfloor : m.floor = m.calls.top.base + m.calls.top.numSlots := Frame.floor_eq h.noWrap
  have hadd : add m.calls.top.base m.calls.top.numSlots = some m.floor :=
    (add_eq h.noWrap).trans (congrArg some hfloor.symm)
  rw [floor, bind_of_ok frame_eq]
  exact lookup_eq hadd

theorem setStack_eq {slots : Array Value} {size : Nat} {s : Stack Value} (hslots : slots = s.slots)
    (hsize : size = s.size) :
    setStack slots size m = some (.ok ⟨⟩ { m with stack := s }) := by
  subst hslots hsize
  exact dif_pos s.size_le

theorem live_eq : live m = some (.ok (m.stack.slots.extract 0 m.stack.size) m) := by
  rw [live, bind_of_ok (observe_eq _)]
  exact lookup_eq (slice_eq (Nat.zero_le _) m.stack.size_le)

theorem truncate_eq (n : Nat) :
    truncate n m = some (.ok ⟨⟩ { m with stack := m.stack.truncate n }) := by
  rw [truncate, bind_of_ok (observe_eq _)]
  exact setStack_eq rfl rfl

theorem topmost_eq {n : Nat} (h : n ≤ m.stack.size) :
    topmost n m = some (.ok (m.stack.topmost n) m) := by
  rw [topmost, bind_of_ok (observe_eq _), if_pos h]
  exact lookup_eq (slice_eq (Nat.sub_le _ _) m.stack.size_le)

theorem growTo_eq {n : Nat} (room : n ≤ m.stack.capacity) :
    growTo n m = some (.ok ⟨⟩ { m with stack := m.stack.growTo n room }) := by
  rw [growTo, bind_of_ok (observe_eq _), if_neg (Nat.not_lt.mpr room)]
  by_cases gains : m.stack.size < n
  · have hgained := slice_eq (Nat.le_of_lt gains) room
    have hcount : (m.stack.slots.extract m.stack.size n).size = n - m.stack.size := by
      rw [Array.size_extract, Nat.min_eq_left room]
    have hslots : Stack.reset m.stack.slots m.stack.size
        (m.stack.slots.extract m.stack.size n).size = (m.stack.growTo n room).slots := by
      rw [hcount]
      rfl
    have hsize : n = (m.stack.growTo n room).size := (Nat.max_eq_right (Nat.le_of_lt gains)).symm
    rw [if_pos gains]
    exact (bind_of_ok (lookup_eq hgained)).trans (setStack_eq hslots hsize)
  · rw [if_neg gains, Stack.growTo_of_le room (Nat.le_of_not_lt gains)]
    rfl

theorem growTo_eq_error {n : Nat} (full : ¬n ≤ m.stack.capacity) :
    growTo n m = some (.error (.stackOverflow m.stack.capacity) m) := by
  rw [growTo, bind_of_ok (observe_eq _), if_pos (Nat.lt_of_not_le full)]
  rfl

theorem agrees_push (hcapacity : m.stack.capacity < 2 ^ 63) (v : Value) :
    (push v).Agrees (Exec.push v) m := by
  rw [push]
  refine .of_ok (observe_eq _) ?_
  by_cases room : m.stack.size < m.stack.capacity
  · have hadd : add m.stack.size 1 = some (m.stack.size + 1) := add_eq (by omega)
    have hset : m.stack.slots.setIfInBounds m.stack.size v = (m.stack.push v room).slots :=
      dif_pos room
    rw [if_pos room]
    refine .of_ok (lookup_eq hadd) (agrees_of_eq (setStack_eq hset rfl) ?_)
    exact Exec.push_eq_ok.mpr ⟨room, rfl⟩
  · rw [if_neg room]
    exact agrees_fail (Exec.push_eq_error.mpr ⟨room, rfl, rfl⟩)

theorem agrees_pop (h : m.Bounded) : pop.Agrees Exec.pop m := by
  rw [pop]
  refine .of_ok (observe_eq _) (.of_ok (floor_eq h) ?_)
  by_cases hlt : m.floor < m.stack.size
  · have hpos : 0 < m.stack.size := Nat.zero_lt_of_lt hlt
    have hsize : m.stack.size - 1 = (m.stack.drop 1).size := (Stack.size_drop _ _).symm
    have hslot : m.stack.slots[m.stack.size - 1]? = some (m.stack.top hpos) :=
      Array.getElem?_eq_getElem _
    have hpop : Exec.pop m = .ok (m.stack.top hpos) _ :=
      Exec.pop_eq_ok.mpr ⟨hlt, dif_pos hpos, rfl⟩
    rw [if_neg (Nat.not_le.mpr hlt)]
    refine .of_ok (lookup_eq (sub_eq hpos)) (agrees_of_eq ?_ hpop)
    exact (bind_of_ok (setStack_eq rfl hsize)).trans (lookup_eq hslot)
  · rw [if_pos (Nat.le_of_not_lt hlt)]
    exact agrees_fail (Exec.pop_eq_error.mpr ⟨hlt, rfl, rfl⟩)

theorem agrees_popMany (h : m.Bounded) (n : Nat) : (popMany n).Agrees (Exec.popMany n) m := by
  rw [popMany]
  refine .of_ok (floor_eq h) (.of_ok (observe_eq _) ?_)
  by_cases enough : n ≤ m.stack.size - m.floor
  · have hle : n ≤ m.stack.size := by omega
    have hpop : Exec.popMany n m = .ok (m.stack.topmost n) { m with stack := m.stack.drop n } :=
      Exec.popMany_eq_ok.mpr ⟨enough, rfl, rfl⟩
    rw [if_neg (Nat.not_lt.mpr enough)]
    refine .of_ok (topmost_eq hle) (.of_ok (lookup_eq (sub_eq hle)) ?_)
    exact agrees_of_eq (bind_of_ok (truncate_eq _)) hpop
  · rw [if_pos (Nat.lt_of_not_le enough)]
    exact agrees_fail (Exec.popMany_eq_error.mpr ⟨enough, rfl, rfl⟩)

theorem agrees_pushAnswer {o : Option (Except Fault Value)} {answer : Except Fault Value}
    (hcapacity : m.stack.capacity < 2 ^ 63) (ho : o = some answer) :
    (pushAnswer o).Agrees (do Exec.push (← MonadExcept.ofExcept answer)) m := by
  refine .of_ok (lookup_eq ho) ?_
  cases answer with
  | ok v => exact agrees_push hcapacity v
  | error fault => exact agrees_fail rfl

theorem agrees_unary (h : m.Bounded) (k : Value → Except Fault Value) :
    (unary k).Agrees (Exec.unary k) m := by
  refine (agrees_pop h).bind fun v m' hpop => ?_
  obtain ⟨-, -, rfl⟩ := Exec.pop_eq_ok.mp hpop
  exact agrees_pushAnswer h.capacity_lt rfl

theorem agrees_binary {checked : Value → Value → Option (Except Fault Value)}
    {k : Value → Value → Except Fault Value} (h : m.Bounded)
    (hk : ∀ l r, checked l r = some (k l r)) : (binary checked).Agrees (Exec.binary k) m := by
  refine (agrees_pop h).bind fun r m' hright => ?_
  obtain ⟨-, -, rfl⟩ := Exec.pop_eq_ok.mp hright
  refine (agrees_pop (h.drop 1)).bind fun l m' hleft => ?_
  obtain ⟨-, -, rfl⟩ := Exec.pop_eq_ok.mp hleft
  exact agrees_pushAnswer h.capacity_lt (hk l r)

theorem agrees_jump (offset : Nat) : (jump offset).Agrees (Exec.jump offset) m :=
  .of_ok frame_eq rfl

theorem agrees_jumpUnlessTruthy (h : m.Bounded) (offset : Nat) :
    (jumpUnlessTruthy offset).Agrees (Exec.jumpUnlessTruthy offset) m := by
  refine (agrees_pop h).bind fun v m' _ => ?_
  cases v.isTruthy with
  | true => rfl
  | false => exact agrees_jump offset

theorem agrees_getGlobal (h : m.Bounded) (k : Nat) :
    (getGlobal k).Agrees (Exec.getGlobal k) m := by
  refine .of_ok (observe_eq _) (.of_observe ?_)
  cases m.globals[k]? with
  | none => rfl
  | some v => exact agrees_push h.capacity_lt v

theorem agrees_getBuiltin (h : m.Bounded) (k : Nat) :
    (getBuiltin k).Agrees (Exec.getBuiltin k) m := by
  refine .of_ok (observe_eq _) (.of_observe ?_)
  cases m.environment.builtins[k]? with
  | none => rfl
  | some b => exact agrees_push h.capacity_lt (.builtin b)

theorem agrees_getCaptured (h : m.Bounded) (k : Nat) :
    (getCaptured k).Agrees (Exec.getCaptured k) m := by
  refine .of_ok frame_eq (.of_observe ?_)
  cases m.calls.top.closure.captured[k]? with
  | none => rfl
  | some v => exact agrees_push h.capacity_lt v

theorem agrees_setGlobal (h : m.Bounded) (k : Nat) :
    (setGlobal k).Agrees (Exec.setGlobal k) m :=
  (agrees_pop h).bind fun _ _ _ => rfl

theorem agrees_localSlot (h : m.Bounded) (k : Nat) :
    (localSlot k).Agrees (Exec.localSlot k) m := by
  refine .of_ok frame_eq ?_
  by_cases hlt : k < m.calls.top.numSlots
  · have hcapacity := h.capacity_lt
    have hfloor : m.calls.top.base + m.calls.top.numSlots ≤ m.stack.capacity :=
      Nat.le_trans (Nat.le_of_eq (Frame.floor_eq h.noWrap).symm) h.floor_le
    rw [if_pos hlt]
    refine agrees_of_eq (lookup_eq (add_eq (by omega))) ?_
    exact Exec.localSlot_eq_ok.mpr ⟨hlt, rfl, rfl⟩
  · rw [if_neg hlt]
    exact agrees_fail (Exec.localSlot_eq_error.mpr ⟨hlt, rfl, rfl⟩)

theorem agrees_getLocal (h : m.Bounded) (k : Nat) : (getLocal k).Agrees (Exec.getLocal k) m := by
  refine (agrees_localSlot h k).bind fun slot m' hslot => ?_
  obtain ⟨-, -, rfl⟩ := Exec.localSlot_eq_ok.mp hslot
  refine .of_ok live_eq (.of_observe ?_)
  rw [Stack.getElem?_live]
  cases m.stack.get? slot with
  | none => rfl
  | some v => exact agrees_push h.capacity_lt v

theorem agrees_assignSlot (slot : Nat) (v : Value) :
    (assignSlot slot v).Agrees (Exec.assignSlot slot v) m := by
  have hlive : (m.stack.slots.extract 0 m.stack.size).size = m.stack.size := by
    rw [Array.size_extract, Nat.min_eq_left m.stack.size_le, Nat.sub_zero]
  refine .of_ok (observe_eq _) (.of_ok live_eq ?_)
  rw [hlive]
  by_cases hlt : slot < m.stack.size
  · have hset : m.stack.slots.setIfInBounds slot v = (m.stack.set slot v hlt).slots :=
      dif_pos (Nat.lt_of_lt_of_le hlt m.stack.size_le)
    rw [if_pos hlt]
    exact agrees_of_eq (setStack_eq hset rfl) (Exec.assignSlot_eq_ok.mpr ⟨hlt, rfl⟩)
  · rw [if_neg hlt]
    exact agrees_fail (Exec.assignSlot_eq_error.mpr ⟨hlt, rfl, rfl⟩)

theorem agrees_setLocal (h : m.Bounded) (k : Nat) : (setLocal k).Agrees (Exec.setLocal k) m := by
  refine (agrees_localSlot h k).bind fun slot m' hslot => ?_
  obtain ⟨-, -, rfl⟩ := Exec.localSlot_eq_ok.mp hslot
  exact (agrees_pop h).bind fun v m' _ => agrees_assignSlot slot v

theorem agrees_pushClosure (h : m.Bounded) (k n : Nat) :
    (pushClosure k n).Agrees (Exec.pushClosure k n) m := by
  have hconstant : (liftM (Exec.constant k) : Checked Value).Agrees (Exec.constant k) m := rfl
  refine hconstant.bind fun v m' hv => ?_
  obtain ⟨-, rfl⟩ := Exec.constant_eq_ok.mp hv
  cases v with
  | function f =>
    refine (agrees_popMany h n).bind fun captured m' hpop => ?_
    obtain ⟨-, -, rfl⟩ := Exec.popMany_eq_ok.mp hpop
    refine .of_ok (observe_eq _) (.of_observe ?_)
    refine (agrees_push (h.drop n).capacity_lt _).bind ?_
    exact fun _ _ _ => rfl
  | _ => rfl

theorem agrees_callClosure (h : m.Bounded) {c : Closure Value} {n : Nat}
    (enough : n ≤ m.stack.size) (small : c.function.numSlots < 2 ^ 32) :
    (callClosure c n).Agrees (Exec.callClosure c n) m := by
  rw [callClosure]
  by_cases arity : n = c.function.numParameters
  · rw [if_pos arity]
    refine .of_ok (observe_eq _) (.of_ok (observe_eq _) ?_)
    by_cases depth : m.calls.depth < m.environment.maxFrames
    · rw [if_pos depth]
      have hcapacity := h.capacity_lt
      have hdepth := h.depth_le
      have hsize : m.stack.size ≤ m.stack.capacity := m.stack.size_le
      have noWrap : (Frame.enter c (m.stack.size - n)).NoWrap :=
        show m.stack.size - n + c.function.numSlots < 2 ^ 64 by omega
      have hfloor : add (m.stack.size - n) c.function.numSlots =
          some (Frame.enter c (m.stack.size - n)).floor :=
        (add_eq noWrap).trans (congrArg some (Frame.floor_eq noWrap).symm)
      have hnext : add m.calls.depth 1 = some (m.calls.depth + 1) := add_eq (by omega)
      refine .of_ok (observe_eq _) (.of_ok (lookup_eq (sub_eq enough)) ?_)
      refine .of_ok (lookup_eq hfloor) ?_
      by_cases room : (Frame.enter c (m.stack.size - n)).floor ≤ m.stack.capacity
      · refine agrees_of_eq ((bind_of_ok (growTo_eq room)).trans (bind_of_ok (lookup_eq hnext))) ?_
        exact Exec.callClosure_eq_ok.mpr ⟨arity, depth, room, rfl, rfl⟩
      · refine agrees_of_eq (bind_of_error (growTo_eq_error room)) ?_
        exact Exec.callClosure_eq_error.mpr (.inr (.inr ⟨arity, depth, room, rfl, rfl⟩))
    · rw [if_neg depth]
      refine agrees_fail ?_
      exact Exec.callClosure_eq_error.mpr (.inr (.inl ⟨arity, depth, rfl, rfl⟩))
  · rw [if_neg arity]
    exact agrees_fail (Exec.callClosure_eq_error.mpr (.inl ⟨arity, rfl, rfl⟩))

theorem agrees_callBuiltin (h : m.Bounded) {b : Builtin} {n : Nat} (enough : n < m.stack.size) :
    (callBuiltin b n).Agrees (Exec.callBuiltin b n) m := by
  have hreply : Host.checked b.native (m.stack.topmost n).toList =
      some (m.environment.host b.native (m.stack.topmost n).toList) := by
    rw [h.host_eq, Host.checked_eq]
  have hbelow : sub m.stack.size n = some (m.stack.size - n) := sub_eq (Nat.le_of_lt enough)
  have hcallee : sub (m.stack.size - n) 1 = some (m.stack.size - (n + 1)) :=
    sub_eq (Nat.sub_pos_of_lt enough)
  have hpush (printed : Array Value) (v : Value) :
      (do push v; return Event.calledBuiltin b.name n : Checked Event).Agrees
        (do Exec.push v; return .calledBuiltin b.name n)
        { m with stack := m.stack.drop (n + 1), printed := printed } :=
    (agrees_push (m := { m with stack := m.stack.drop (n + 1), printed := printed })
      h.capacity_lt v).bind fun _ _ _ => rfl
  refine .of_ok (topmost_eq (Nat.le_of_lt enough)) (.of_ok (lookup_eq hreply) ?_)
  refine .of_ok (observe_eq _) (.of_ok (lookup_eq hbelow) (.of_ok (lookup_eq hcallee) ?_))
  exact (bind_of_ok (truncate_eq _)).trans (hpush _ _)

theorem agrees_call (h : m.Bounded) {n : Nat} (small : n + 1 < 2 ^ 64) :
    (call n).Agrees (Exec.call n) m := by
  have hneeded : add n 1 = some (n + 1) := add_eq small
  have underflow (few : ¬m.floor + n < m.stack.size) :
      Exec.call n m = .error .stackUnderflow m := by
    simp only [Exec.call, Exec.observe_bind, if_neg few]
    rfl
  refine .of_ok (observe_eq _) (.of_ok (lookup_eq hneeded) ?_)
  by_cases fits : m.stack.size < n + 1
  · rw [if_pos fits]
    exact agrees_fail (underflow (by omega))
  · rw [if_neg fits]
    refine .of_ok (floor_eq h) ?_
    by_cases few : m.stack.size - (n + 1) < m.floor
    · rw [if_pos few]
      exact agrees_fail (underflow (by omega))
    · have enough : m.floor + n < m.stack.size := by omega
      rw [if_neg few]
      refine .of_ok live_eq ?_
      rw [Stack.getElem?_live, Agrees, Exec.call]
      simp only [Exec.observe_bind, if_pos enough]
      cases found : m.stack.get? (m.stack.size - (n + 1)) with
      | none => rfl
      | some callee =>
        cases callee with
        | closure c =>
          have hslots := h.closures c (Stack.mem_slots_of_get? found)
          exact agrees_callClosure h (by omega) hslots
        | builtin b => exact agrees_callBuiltin h (by omega)
        | _ => rfl

theorem agrees_leave (h : m.Bounded) (v : Value) : (leave v).Agrees (Exec.leave v) m := by
  have hpop : (liftM Exec.popFrame : Checked Frame).Agrees Exec.popFrame m := rfl
  refine hpop.bind fun f m' hf => ?_
  obtain ⟨callers, caller, hcallers, rfl, rfl⟩ := Exec.popFrame_eq_ok.mp hf
  have hcapacity := h.capacity_lt
  have hdepth : m.calls.callers.size + 1 ≤ m.stack.capacity + 1 := h.depth_le
  rw [hcallers, Array.size_push] at hdepth
  have hnext : add (callers.size + 1) 1 = some (callers.size + 1 + 1) := add_eq (by omega)
  have hbase : 0 < m.calls.top.base := (h.returns (by simp [hcallers])).1
  refine .of_ok (observe_eq _) (.of_ok (lookup_eq hnext) ?_)
  refine .of_ok (lookup_eq (sub_eq hbase)) ?_
  refine (bind_of_ok (truncate_eq _)).trans ?_
  refine (agrees_push (m := { m with
    stack := m.stack.truncate (m.calls.top.base - 1)
    calls := ⟨callers, caller⟩ }) hcapacity v).bind fun _ m' hpush => ?_
  obtain ⟨room, rfl⟩ := Exec.push_eq_ok.mp hpush
  rfl

theorem agrees_quietly {x : Checked Unit} {y : Exec Unit} (h : x.Agrees y m) :
    (execute.quietly x).Agrees (Exec.execute.quietly y) m :=
  h.bind fun _ _ _ => rfl

theorem operand_eq {i : Instruction} {k : Nat} (hk : k < i.operands.length) :
    i.operands[k]? = some (i.operand k) := by
  rw [Instruction.operand, List.getD_eq_getElem?_getD, List.getElem?_eq_getElem hk,
    Option.getD_some]

/-- No operation of an instruction is out of range if it has the operands of its opcode. -/
theorem agrees_execute (h : m.Bounded) {i : Instruction}
    (operands : i.operands.length = i.opcode.widths.length)
    (small : i.operand 0 + 1 < 2 ^ 64) : (execute i).Agrees (Exec.execute i) m := by
  have first {β : Type} {f : Nat → Checked β} {y : Exec β}
      (hlength : 0 < i.operands.length) (hf : (f (i.operand 0)).Agrees y m) :
      (do f (← i.operands[0]?) : Checked β).Agrees y m :=
    .of_ok (lookup_eq (operand_eq hlength)) hf
  have constant (k : Nat) : (liftM (Exec.constant k) : Checked Value).Agrees (Exec.constant k) m :=
    rfl
  have compare (op : Comparison) : (execute.compare op).Agrees (Exec.execute.compare op) m :=
    agrees_binary h fun _ _ => rfl
  cases op : i.opcode
  all_goals
    rw [op] at operands
    simp only [execute, Exec.execute, op]
  case constant =>
    refine agrees_quietly (first (operands ▸ Nat.one_pos) ((constant _).bind fun v m' hv => ?_))
    obtain ⟨-, rfl⟩ := Exec.constant_eq_ok.mp hv
    exact agrees_push h.capacity_lt v
  case add | sub | mul | div =>
    exact agrees_quietly (agrees_binary h (Arithmetic.checkedValues_eq _))
  case equal | notEqual | greaterThan => exact agrees_quietly (compare _)
  case index => exact agrees_quietly (agrees_binary h fun _ _ => rfl)
  case minus | bang => exact agrees_quietly (agrees_unary h _)
  case pop => exact agrees_quietly ((agrees_pop h).map _)
  case pushTrue | pushFalse | pushNull => exact agrees_quietly (agrees_push h.capacity_lt _)
  case jump => exact agrees_quietly (first (operands ▸ Nat.one_pos) (agrees_jump _))
  case jumpNotTruthy =>
    exact agrees_quietly (first (operands ▸ Nat.one_pos) (agrees_jumpUnlessTruthy h _))
  case getGlobal => exact agrees_quietly (first (operands ▸ Nat.one_pos) (agrees_getGlobal h _))
  case setGlobal => exact agrees_quietly (first (operands ▸ Nat.one_pos) (agrees_setGlobal h _))
  case getLocal => exact agrees_quietly (first (operands ▸ Nat.one_pos) (agrees_getLocal h _))
  case setLocal => exact agrees_quietly (first (operands ▸ Nat.one_pos) (agrees_setLocal h _))
  case getBuiltin => exact agrees_quietly (first (operands ▸ Nat.one_pos) (agrees_getBuiltin h _))
  case getFree => exact agrees_quietly (first (operands ▸ Nat.one_pos) (agrees_getCaptured h _))
  case array =>
    refine agrees_quietly (first (operands ▸ Nat.one_pos) ((agrees_popMany h _).bind ?_))
    intro elements m' hpop
    obtain ⟨-, -, rfl⟩ := Exec.popMany_eq_ok.mp hpop
    exact agrees_push (h.drop _).capacity_lt _
  case hash =>
    refine agrees_quietly (first (operands ▸ Nat.one_pos) ((agrees_popMany h _).bind ?_))
    intro elements m' hpop
    obtain ⟨-, -, rfl⟩ := Exec.popMany_eq_ok.mp hpop
    exact agrees_pushAnswer (h.drop _).capacity_lt (Value.checkedHashOf_eq elements)
  case closure =>
    have second : i.operands[1]? = some (i.operand 1) := operand_eq (operands ▸ Nat.one_lt_two)
    refine agrees_quietly (first (operands ▸ Nat.two_pos) (.of_ok (lookup_eq second) ?_))
    exact agrees_pushClosure h _ _
  case call => exact (first (operands ▸ Nat.one_pos) (agrees_call h small)).map some
  case returnValue =>
    refine (agrees_pop h).bind fun v m' hpop => ?_
    obtain ⟨-, -, rfl⟩ := Exec.pop_eq_ok.mp hpop
    exact (agrees_leave (h.drop 1) v).map some
  case returnNull => exact (agrees_leave h .null).map some

end Checked

end BytecodeMachine
