import BytecodeMachine.Proofs.Expressions.Correctness
import BytecodeMachine.Proofs.Programs.Views
import BytecodeMachine.Proofs.Values.Arithmetic
import Mathlib.Data.Nat.Factorial.Basic

/-!
# Factorials

A function that calls itself through a global computes factorials. Each activation keeps its
argument on the stack while the next one runs, so the argument says how many frames and how many
stack slots the computation takes.
-/

namespace BytecodeMachine

namespace Factorial

open View

/-- `let fact = fn(n) { if (n == 0) { return 1; } n * fact(n - 1) };`, where the first two constants
are zero and one and the first global is `fact`. -/
def body : List Instruction :=
  [⟨.getLocal, [0]⟩, ⟨.constant, [0]⟩, ⟨.equal, []⟩, ⟨.jumpNotTruthy, [13]⟩,
    ⟨.constant, [1]⟩, ⟨.returnValue, []⟩,
    ⟨.getLocal, [0]⟩, ⟨.getGlobal, [0]⟩, ⟨.getLocal, [0]⟩, ⟨.constant, [1]⟩, ⟨.sub, []⟩,
    ⟨.call, [1]⟩, ⟨.mul, []⟩, ⟨.returnValue, []⟩]

/-- Defines the function and calls it with the third constant. -/
def main : List Instruction :=
  [⟨.closure, [3, 0]⟩, ⟨.setGlobal, [0]⟩, ⟨.getGlobal, [0]⟩, ⟨.constant, [2]⟩, ⟨.call, [1]⟩,
    ⟨.pop, []⟩]

def function : Function where
  identity := .given 0
  code := .ofParts [[24, 0], [0, 0, 0], [8], [13, 0, 13],
    [0, 0, 1], [22],
    [24, 0], [16, 0, 0], [24, 0], [0, 0, 1], [3],
    [21, 1], [4], [22]]
  numLocals := 1
  numParameters := 1

theorem given_constants (n : Nat) (v : Value)
    (h : v ∈ #[.integer 0, .integer 1, .integer (.ofNat n), .function function]) : v.Given := by
  simp only [List.mem_toArray, List.mem_cons, List.not_mem_nil, or_false] at h
  rcases h with rfl | rfl | rfl | rfl
  · exact Value.given_integer 0
  · exact Value.given_integer 1
  · exact Value.given_integer _
  · exact Value.given_function (Identity.isGiven_given 0)

/-- The program that computes the factorial of the number. -/
def program (n : Nat) : Program where
  code := .ofParts [[27, 0, 3, 0], [17, 0, 0], [16, 0, 0], [0, 0, 2], [21, 1], [2]]
  constants := ⟨#[.integer 0, .integer 1, .integer (.ofNat n), .function function],
    given_constants n⟩

theorem lists_body : function.code.Lists 0 body := by
  have encoded : body.mapM Instruction.encode = .ok _ := rfl
  exact (Code.lists_ofParts encoded).1

theorem lists_main (n : Nat) : (program n).code.Lists 0 main := by
  have encoded : main.mapM Instruction.encode = .ok _ := rfl
  exact (Code.lists_ofParts encoded).1

/-- The only closure that the program creates. -/
def closure : Closure Value := ⟨.created 0, function, #[]⟩

/-- What lies on the stack when the closure is called with a number. -/
def slots (k : Nat) (rest : List Value) : List Value :=
  .integer (.ofNat k) :: .closure closure :: rest

/-- The closure runs for its caller on a number, with operands above it. -/
def activation (v : View) (k : Nat) (rest : List Value) (offset : Nat) (operands : List Value) :
    View := (v.callee closure (rest.length + 1)).goto offset (operands ++ slots k rest)

/-- A caller that has the constants, and the closure in its global. -/
structure Ready (n : Nat) (v : View) : Prop where
  constants_eq : v.environment.constants = (program n).constants
  global_eq : v.globals[0]? = some (.closure closure)

variable {n k : Nat} {v : View} {rest operands : List Value}

theorem Ready.activation (h : Ready n v) (k : Nat) (rest : List Value) (offset : Nat)
    (operands : List Value) : Ready n (activation v k rest offset operands) := ⟨h.1, h.2⟩

theorem depth_activation (v : View) (k : Nat) (rest : List Value) (offset : Nat)
    (operands : List Value) :
    (activation v k rest offset operands).calls.depth = v.calls.depth + 1 :=
  congrArg (· + 1) (Array.size_push ..)

theorem length_slots (operands : List Value) :
    (operands ++ slots k rest).length = rest.length + 2 + operands.length := by
  simp only [slots, List.length_append, List.length_cons]
  omega

theorem floor_le {ip : Nat} (operands : List Value) :
    (⟨closure, ip, rest.length + 1⟩ : Frame).floor ≤ (operands ++ slots k rest).length := by
  have hfloor : (⟨closure, ip, rest.length + 1⟩ : Frame).floor ≤ rest.length + 2 := Nat.mod_le _ _
  rw [length_slots]
  exact Nat.le_add_right_of_le hfloor

theorem lt_capacity {limit capacity : Nat} (operands : List Value) (h : operands.length < limit)
    (room : rest.length + 2 + limit ≤ capacity) :
    (operands ++ slots k rest).length < capacity := by
  rw [length_slots]
  omega

/-- The argument lies in the only slot. -/
theorem getElem?_slots (operands : List Value) :
    (operands ++ slots k rest).reverse[rest.length + 1]? = some (.integer (.ofNat k)) := by
  simp [slots]

theorem beq_zero_eq (hk : k < 2 ^ 63) :
    (Value.integer (.ofNat k) == .integer 0) = decide (k = 0) := by
  rw [Value.beq_eq_same, Value.same, Bool.eq_iff_iff, beq_iff_eq, decide_eq_true_iff,
    ← Int64.toInt_inj, Int64.toInt_ofNat_of_lt hk]
  exact Int.natCast_eq_zero

theorem leads_argument {offset : Nat} (listed : function.code.Lists offset [⟨.getLocal, [0]⟩])
    (room : (operands ++ slots k rest).length < v.capacity) :
    (activation v k rest offset operands).Leads
      (activation v k rest (offset + 2) (.integer (.ofNat k) :: operands)) :=
  leads_getLocal listed Nat.zero_lt_one (getElem?_slots operands) (floor_le operands) room

theorem leads_number {offset index : Nat} {a : Value} (hv : Ready n v)
    (listed : function.code.Lists offset [⟨.constant, [index]⟩])
    (found : (program n).constants.get? index = some a)
    (room : (operands ++ slots k rest).length < v.capacity) :
    (activation v k rest offset operands).Leads
      (activation v k rest (offset + 3) (a :: operands)) :=
  leads_constant listed ((congrArg (·.get? index) hv.constants_eq).trans found) (floor_le operands)
    room

/-- The function tests whether its argument is zero. -/
theorem leads_test (hv : Ready n v) (hk : k < 2 ^ 63) (room : rest.length + 2 + 2 ≤ v.capacity) :
    (activation v k rest 0 []).Leads (activation v k rest (if k = 0 then 9 else 13) []) := by
  have argument : (activation v k rest 0 []).Leads (activation v k rest 2 [.integer (.ofNat k)]) :=
    leads_argument (lists_body.nth (j := 0) rfl) (lt_capacity [] (by simp) room)
  have zero : (activation v k rest 2 [.integer (.ofNat k)]).Leads
      (activation v k rest 5 [.integer 0, .integer (.ofNat k)]) :=
    leads_number hv (lists_body.nth (j := 1) rfl) rfl (lt_capacity [_] (by simp) room)
  have equal : (activation v k rest 5 [.integer 0, .integer (.ofNat k)]).Leads
      (activation v k rest 6 [.boolean (k = 0)]) :=
    leads_binary (i := ⟨.equal, []⟩) (lists_body.nth (j := 2) rfl) rfl rfl
      (congrArg (fun b : Bool => Except.ok (Value.boolean b)) (beq_zero_eq hk)) (floor_le [])
      (lt_capacity [] (by simp) room)
  have jump := leads_jumpNotTruthy (v := activation v k rest 6 [.boolean (k = 0)])
    (lists_body.nth (j := 3) rfl) rfl (floor_le [])
  refine argument.trans (zero.trans (equal.trans ?_))
  by_cases h : k = 0
  · rw [if_pos h]
    rw [decide_eq_true h] at jump ⊢
    exact jump
  · rw [if_neg h]
    rw [decide_eq_false h] at jump ⊢
    exact jump

/-- The activation for a number other than zero while it waits for the factorial of the number
before, with what its call takes on top. -/
def calling (v : View) (k : Nat) (rest : List Value) (offset : Nat) : View :=
  activation v (k + 1) rest offset
    [.integer (.ofNat k), .closure closure, .integer (.ofNat (k + 1))]

theorem leads_calling (hv : Ready n v) (hk : k + 1 < 2 ^ 63)
    (room : rest.length + 2 + 4 ≤ v.capacity) :
    (activation v (k + 1) rest 0 []).Leads (calling v k rest 24) := by
  have test := leads_test hv hk (by omega : rest.length + 2 + 2 ≤ v.capacity)
  rw [if_neg k.succ_ne_zero] at test
  have factor : (activation v (k + 1) rest 13 []).Leads
      (activation v (k + 1) rest 15 [.integer (.ofNat (k + 1))]) :=
    leads_argument (lists_body.nth (j := 6) rfl) (lt_capacity [] (by simp) room)
  have callee : (activation v (k + 1) rest 15 [.integer (.ofNat (k + 1))]).Leads
      (activation v (k + 1) rest 18 [.closure closure, .integer (.ofNat (k + 1))]) :=
    leads_getGlobal (lists_body.nth (j := 7) rfl) hv.global_eq (floor_le [_])
      (lt_capacity [_] (by simp) room)
  have argument : (activation v (k + 1) rest 18
        [.closure closure, .integer (.ofNat (k + 1))]).Leads
      (activation v (k + 1) rest 20
        [.integer (.ofNat (k + 1)), .closure closure, .integer (.ofNat (k + 1))]) :=
    leads_argument (lists_body.nth (j := 8) rfl) (lt_capacity [_, _] (by simp) room)
  have one : (activation v (k + 1) rest 20
        [.integer (.ofNat (k + 1)), .closure closure, .integer (.ofNat (k + 1))]).Leads
      (activation v (k + 1) rest 23
        [.integer 1, .integer (.ofNat (k + 1)), .closure closure, .integer (.ofNat (k + 1))]) :=
    leads_number hv (lists_body.nth (j := 9) rfl) rfl (lt_capacity [_, _, _] (by simp) room)
  have before : Int64.ofNat (k + 1) - 1 = .ofNat k := by
    rw [Int64.ofNat_add]
    exact Int64.add_sub_cancel _ _
  have sub : (activation v (k + 1) rest 23
        [.integer 1, .integer (.ofNat (k + 1)), .closure closure, .integer (.ofNat (k + 1))]).Leads
      (calling v k rest 24) :=
    leads_binary (i := ⟨.sub, []⟩) (lists_body.nth (j := 10) rfl) rfl rfl
      (congrArg (fun n => Except.ok (Value.integer n)) before) (floor_le [_, _])
      (lt_capacity [_, _] (by simp) room)
  exact test.trans (factor.trans (callee.trans (argument.trans (one.trans sub))))

/-- The next activation lies above the number that its answer is to be multiplied by. -/
def below (k : Nat) (rest : List Value) : List Value :=
  .integer (.ofNat (k + 1)) :: slots (k + 1) rest

theorem length_below (k : Nat) (rest : List Value) : (below k rest).length = rest.length + 3 := rfl

theorem depth_calling (v : View) (k : Nat) (rest : List Value) (offset : Nat) :
    (calling v k rest offset).calls.depth = v.calls.depth + 1 := depth_activation ..

theorem leads_next (hv : Ready n v) (hk : k + 1 < 2 ^ 63)
    (room : rest.length + 2 + 4 ≤ v.capacity)
    (frame : v.calls.depth + 1 < v.environment.maxFrames) :
    (activation v (k + 1) rest 0 []).Leads
      (activation (calling v k rest 26) k (below k rest) 0 []) := by
  have depth : (calling v k rest 24).calls.depth < v.environment.maxFrames := by
    rw [depth_calling]
    exact frame
  have hroom : (below k rest).length + 1 + 1 ≤ v.capacity := by
    rw [length_below]
    omega
  have call : (calling v k rest 24).Leads
      (activation (calling v k rest 26) k (below k rest) 0 []) :=
    leads_call [_] (lists_body.nth (j := 11) rfl) rfl rfl rfl rfl depth (floor_le [_]) hroom
  exact (leads_calling hv hk room).trans call

/-- Called with a number, the function returns its factorial. -/
theorem leads_factorial (k : Nat) (hk : k < 2 ^ 63) (hv : Ready n v)
    (room : rest.length + (3 * k + 4) ≤ v.capacity)
    (frames : v.calls.depth + (k + 1) ≤ v.environment.maxFrames) :
    (activation v k rest 0 []).Leads
      { v with values := .integer (.ofNat k.factorial) :: rest } := by
  -- Each activation is the caller of the next one, so the induction is for every caller.
  induction k generalizing v rest with
  | zero =>
    have room : rest.length + 2 + 2 ≤ v.capacity := by omega
    have test := leads_test hv hk room
    rw [if_pos rfl] at test
    have one : (activation v 0 rest 9 []).Leads (activation v 0 rest 12 [.integer 1]) :=
      leads_number hv (lists_body.nth (j := 4) rfl) rfl (lt_capacity [] (by simp) room)
    have back : (activation v 0 rest 12 [.integer 1]).Leads
        { v with values := .integer 1 :: rest } :=
      leads_returnValue [_, _] (lists_body.nth (j := 5) rfl) rfl rfl rfl (floor_le [])
        (by omega : rest.length < v.capacity)
    exact test.trans (one.trans back)
  | succ k ih =>
    have next := leads_next hv hk (by omega : rest.length + 2 + 4 ≤ v.capacity) (by omega)
    have hroom : (below k rest).length + (3 * k + 4) ≤ v.capacity := by
      rw [length_below]
      omega
    have hframes : (calling v k rest 26).calls.depth + (k + 1) ≤ v.environment.maxFrames := by
      rw [depth_calling]
      omega
    have answer : (activation (calling v k rest 26) k (below k rest) 0 []).Leads
        (activation v (k + 1) rest 26
          [.integer (.ofNat k.factorial), .integer (.ofNat (k + 1))]) :=
      ih (by omega) (hv.activation ..) hroom hframes
    have product : Int64.ofNat (k + 1) * .ofNat k.factorial = .ofNat (k + 1).factorial := by
      rw [Nat.factorial_succ, Int64.ofNat_mul]
    have mul : (activation v (k + 1) rest 26
          [.integer (.ofNat k.factorial), .integer (.ofNat (k + 1))]).Leads
        (activation v (k + 1) rest 27 [.integer (.ofNat (k + 1).factorial)]) :=
      leads_binary (i := ⟨.mul, []⟩) (lists_body.nth (j := 12) rfl) rfl rfl
        (congrArg (fun n => Except.ok (Value.integer n)) product) (floor_le [])
        (lt_capacity [] Nat.zero_lt_one (by omega : rest.length + 2 + 1 ≤ v.capacity))
    have back : (activation v (k + 1) rest 27 [.integer (.ofNat (k + 1).factorial)]).Leads
        { v with values := .integer (.ofNat (k + 1).factorial) :: rest } :=
      leads_returnValue [_, _] (lists_body.nth (j := 13) rfl) rfl rfl rfl (floor_le [])
        (by omega : rest.length < v.capacity)
    exact next.trans (answer.trans (mul.trans back))

/-- If there are too few frames for its argument, the function fails when all of them are in use. -/
theorem fails_factorial (k : Nat) (hk : k < 2 ^ 63) (hv : Ready n v)
    (room : rest.length + (3 * k + 4) ≤ v.capacity)
    (entered : v.calls.depth < v.environment.maxFrames)
    (frames : v.environment.maxFrames < v.calls.depth + (k + 1)) :
    (activation v k rest 0 []).Fails (.callStackOverflow v.environment.maxFrames)
      v.environment.maxFrames := by
  induction k generalizing v rest with
  | zero => omega
  | succ k ih =>
    have hroom : rest.length + 2 + 4 ≤ v.capacity := by omega
    by_cases frame : v.calls.depth + 1 < v.environment.maxFrames
    · have hbelow : (below k rest).length + (3 * k + 4) ≤ v.capacity := by
        rw [length_below]
        omega
      have hentered : (calling v k rest 26).calls.depth < v.environment.maxFrames := by
        rw [depth_calling]
        exact frame
      have hframes : v.environment.maxFrames < (calling v k rest 26).calls.depth + (k + 1) := by
        rw [depth_calling]
        omega
      exact (leads_next hv hk hroom frame).fails
        (ih (by omega) (hv.activation ..) hbelow hentered hframes)
    · have full : (calling v k rest 24).calls.depth = v.environment.maxFrames := by
        rw [depth_calling]
        omega
      have fails : (calling v k rest 24).Fails (.callStackOverflow v.environment.maxFrames)
          (calling v k rest 24).calls.depth :=
        fails_call [_] (lists_body.nth (j := 11) rfl) rfl rfl rfl (Nat.le_of_eq full.symm)
          (floor_le [_])
      rw [full] at fails
      exact (leads_calling hv hk hroom).fails fails

open Machine

variable {setup : Setup}

/-- What the program sees in the beginning. -/
def start (n : Nat) (setup : Setup) : View where
  environment := (load (program n) setup).environment
  globals := .replicate setup.limits.globalsSize .null
  capacity := setup.limits.stackSize
  numCreated := 0
  calls := (load (program n) setup).calls
  values := []

/-- The main frame at an offset, once the function is defined. -/
def defined (n : Nat) (setup : Setup) (offset : Nat) (values : List Value) : View :=
  { (start n setup).goto offset values with
    globals := (start n setup).globals.setIfInBounds 0 (.closure closure), numCreated := 1 }

theorem view_initial (n : Nat) (setup : Setup) :
    (initial (program n) setup).view = start n setup := by
  have capacity : (initial (program n) setup).stack.capacity = setup.limits.stackSize :=
    Array.size_replicate
  have live : (initial (program n) setup).stack.toList = [] := Stack.toList_empty _
  rw [view, capacity, live]
  rfl

theorem ready_defined (globals : 1 ≤ setup.limits.globalsSize) (offset : Nat)
    (values : List Value) : Ready n (defined n setup offset values) := by
  have slot : 0 < (start n setup).globals.size := by
    rw [start, Array.size_replicate]
    exact globals
  exact ⟨rfl, Array.getElem?_setIfInBounds_self_of_lt slot⟩

/-- The program defines the function and is about to call it. -/
theorem leads_defined (globals : 1 ≤ setup.limits.globalsSize)
    (room : 2 ≤ setup.limits.stackSize) :
    (start n setup).Leads (defined n setup 13 [.integer (.ofNat n), .closure closure]) := by
  have room' : 0 < setup.limits.stackSize := by omega
  have slot : 0 < (start n setup).globals.size := by
    rw [start, Array.size_replicate]
    exact globals
  have create : (start n setup).Leads
      { (start n setup).goto 4 [.closure closure] with numCreated := 1 } :=
    leads_closure ((lists_main n).nth (j := 0) rfl) rfl (Nat.le_refl 0) room'
  have assign : View.Leads { (start n setup).goto 4 [.closure closure] with numCreated := 1 }
      (defined n setup 7 []) :=
    leads_setGlobal ((lists_main n).nth (j := 1) rfl) rfl slot (Nat.le_refl 0)
  have callee : (defined n setup 7 []).Leads (defined n setup 10 [.closure closure]) :=
    leads_getGlobal ((lists_main n).nth (j := 2) rfl) (ready_defined globals 7 []).global_eq
      (Nat.le_refl 0) room'
  have argument : (defined n setup 10 [.closure closure]).Leads
      (defined n setup 13 [.integer (.ofNat n), .closure closure]) :=
    leads_constant ((lists_main n).nth (j := 3) rfl) rfl (Nat.zero_le 1) room
  exact create.trans (assign.trans (callee.trans argument))

/-- How the program for a number runs under a setup: either there are frames enough for the number,
or they run out. -/
structure Computes (setup : Setup) (n : Nat) : Prop where
  returns : n + 2 ≤ setup.limits.maxFrames → ∃ fuel m v,
    (load (program n) setup).run fuel = some (.ok (), m) ∧ m.stack.size = 0 ∧
      m.result = .integer v ∧ Wraps v n.factorial
  overflows : setup.limits.maxFrames < n + 2 → ∃ fuel offset m,
    (load (program n) setup).run fuel =
      some (.error ⟨.callStackOverflow setup.limits.maxFrames, offset,
        max 1 setup.limits.maxFrames⟩, m)

theorem leads_called (globals : 1 ≤ setup.limits.globalsSize) (room : 2 ≤ setup.limits.stackSize)
    (frames : 1 < setup.limits.maxFrames) :
    (start n setup).Leads (activation (defined n setup 15 []) n [] 0 []) := by
  have call : (defined n setup 13 [.integer (.ofNat n), .closure closure]).Leads
      (activation (defined n setup 15 []) n [] 0 []) :=
    leads_call [_] ((lists_main n).nth (j := 4) rfl) rfl rfl rfl rfl frames (Nat.le_refl 0) room
  exact (leads_defined globals room).trans call

theorem at_of_view {m : Machine} {offset : Nat} {values : List Value}
    (h : m.view = defined n setup offset values) :
    ((program n).activation setup).At m offset values.reverse where
  code_eq := congrArg (·.calls.top.code) h
  constants_eq := congrArg (·.environment.constants) h
  capacity_eq := congrArg View.capacity h
  floor_eq := congrArg (·.calls.top.floor) h
  depth_eq := congrArg (·.calls.depth) h
  ip_eq := congrArg (·.calls.top.ip) h
  toList_eq := by
    have hvalues : m.stack.toList.reverse = values := congrArg View.values h
    rw [← hvalues, List.reverse_reverse]

theorem runsTo_factorial (n : Nat) (setup : Setup) (hn : n < 2 ^ 63)
    (globals : 1 ≤ setup.limits.globalsSize) (room : 3 * n + 4 ≤ setup.limits.stackSize)
    (frames : n + 2 ≤ setup.limits.maxFrames) :
    (program n).RunsTo setup (.ok (.integer (.ofNat n.factorial))) := by
  have called : (start n setup).Leads (activation (defined n setup 15 []) n [] 0 []) :=
    leads_called globals (by omega) (by omega)
  have hroom : ([] : List Value).length + (3 * n + 4) ≤ setup.limits.stackSize := by
    rw [List.length_nil]
    omega
  have hframes : (defined n setup 15 []).calls.depth + (n + 1) ≤ setup.limits.maxFrames := by
    rw [show (defined n setup 15 []).calls.depth = 1 from rfl]
    omega
  have answer := leads_factorial n hn (ready_defined globals 15 []) hroom hframes
  obtain ⟨past, m, run, hm⟩ := called.trans answer _ (view_initial n setup)
  exact Program.runsTo_of_pop run (at_of_view hm) ((lists_main n).nth (j := 5) rfl) rfl

theorem overflows_factorial (n : Nat) (setup : Setup) (hn : n < 2 ^ 63)
    (globals : 1 ≤ setup.limits.globalsSize) (room : 3 * n + 4 ≤ setup.limits.stackSize)
    (frames : setup.limits.maxFrames < n + 2) :
    (start n setup).Fails (.callStackOverflow setup.limits.maxFrames)
      (max 1 setup.limits.maxFrames) := by
  have hroom : ([] : List Value).length + (3 * n + 4) ≤ setup.limits.stackSize := by
    rw [List.length_nil]
    omega
  by_cases entered : 1 < setup.limits.maxFrames
  · have hframes : setup.limits.maxFrames < (defined n setup 15 []).calls.depth + (n + 1) := by
      rw [show (defined n setup 15 []).calls.depth = 1 from rfl]
      omega
    rw [Nat.max_eq_right (Nat.le_of_lt entered)]
    exact (leads_called globals (by omega) entered).fails
      (fails_factorial n hn (ready_defined globals 15 []) hroom entered hframes)
  · have full : setup.limits.maxFrames ≤ 1 := Nat.le_of_not_lt entered
    have fails : (defined n setup 13 [.integer (.ofNat n), .closure closure]).Fails
        (.callStackOverflow setup.limits.maxFrames) 1 :=
      fails_call [_] ((lists_main n).nth (j := 4) rfl) rfl rfl rfl full (Nat.le_refl 0)
    rw [Nat.max_eq_left full]
    exact (leads_defined globals (by omega)).fails fails

/-- The program computes the factorial of any number, wrapped like every product, with two frames
more than the number and three slots for each of its predecessors. -/
theorem computes_of_room (setup : Setup) (n : Nat) (hn : n < 2 ^ 63)
    (globals : 1 ≤ setup.limits.globalsSize) (room : 3 * n + 4 ≤ setup.limits.stackSize) :
    Computes setup n where
  returns frames := by
    obtain ⟨fuel, m, run, size, result⟩ := runsTo_factorial n setup hn globals room frames
    exact ⟨fuel, m, _, run, size, result, .of_toInt_eq Int64.toInt_ofNat'⟩
  overflows frames := by
    have fails := overflows_factorial n setup hn globals room frames
    rw [← view_initial] at fails
    exact fails.exists_run

theorem computes_five :
    (∃ fuel m, (load (program 5) { limits := ⟨19, 1, 7⟩ }).run fuel = some (.ok (), m) ∧
      m.stack.size = 0 ∧ m.result = .integer 120) ∧
    ∃ fuel offset m, (load (program 5) { limits := ⟨19, 1, 6⟩ }).run fuel =
      some (.error ⟨.callStackOverflow 6, offset, 6⟩, m) := by
  have enough := computes_of_room { limits := ⟨19, 1, 7⟩ } 5 (by decide) (by decide) (by decide)
  have few := computes_of_room { limits := ⟨19, 1, 6⟩ } 5 (by decide) (by decide) (by decide)
  obtain ⟨fuel, m, v, run, size, result, wraps⟩ := enough.returns (by decide)
  have hv : 120 = v := (wraps 120).mp rfl
  exact ⟨⟨fuel, m, run, size, hv ▸ result⟩, few.overflows (by decide)⟩

end Factorial
end BytecodeMachine
