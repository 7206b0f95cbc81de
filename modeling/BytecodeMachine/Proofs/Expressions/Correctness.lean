import BytecodeMachine.Proofs.Expressions.Delivery

/-!
# Code of expressions

The code of an expression delivers its value: by induction on the expression, from any offset and
over any stack with enough room above it. So a program that consists of such code ends with the value
of the expression, or with its fault.
-/

namespace BytecodeMachine

theorem UnaryOperator.unary?_opcode (op : UnaryOperator) : op.opcode.unary? = some op.values := by
  cases op <;> rfl

theorem BinaryOperator.binary?_opcode (op : BinaryOperator) :
    op.opcode.binary? = some op.values := by
  cases op with
  | arithmetic op => exact op.binary?_opcode
  | comparison op => cases op <;> rfl
  | index => rfl

namespace Expression

open Activation

theorem length_of_evaluateAll {constants : Pool} {es : List Expression} {vs : List Value}
    (h : evaluateAll constants es = .ok vs) : vs.length = es.length := by
  induction es generalizing vs with
  | nil =>
    cases h
    rfl
  | cons e es ih =>
    rw [evaluateAll] at h
    cases hfirst : evaluate constants e with
    | error fault =>
      rw [hfirst] at h
      cases h
    | ok v =>
      cases hrest : evaluateAll constants es with
      | error fault =>
        rw [hfirst, hrest] at h
        cases h
      | ok ws =>
        rw [hfirst, hrest] at h
        cases h
        rw [List.length_cons, List.length_cons, ih hrest]

variable {act : Activation}

section Operations

variable {start mid mid' : Nat} {values : List Value} {x y : Except Fault Value}
  (floor : act.floor ≤ values.length) (room : values.length < act.capacity)

include floor room

theorem delivers_unary {op : UnaryOperator}
    (operand : act.Delivers start values mid (fun v => values ++ [v]) x)
    (listed : act.code.Lists mid [⟨op.opcode, []⟩]) :
    act.Delivers start values (mid + op.opcode.length) (fun v => values ++ [v])
      (x >>= op.values) :=
  operand.bind fun _ _ => delivers_of_answers listed (.unary op.unary?_opcode) floor room

theorem delivers_binary {op : BinaryOperator}
    (left : act.Delivers start values mid (fun l => values ++ [l]) x)
    (right : ∀ l, act.Delivers mid (values ++ [l]) mid' (fun r => values ++ [l] ++ [r]) y)
    (listed : act.code.Lists mid' [⟨op.opcode, []⟩]) :
    act.Delivers start values (mid' + op.opcode.length) (fun v => values ++ [v])
      (x >>= fun l => y >>= op.values l) := by
  refine left.bind fun l _ => (right l).bind fun r _ => ?_
  rw [List.append_assoc]
  exact delivers_of_answers listed (.binary op.binary?_opcode) floor room

theorem delivers_literal {es : List Expression} {op : Opcode} {f : List Value → Except Fault Value}
    (elements : act.Delivers start values mid (fun vs => values ++ vs)
      (evaluateAll act.constants es))
    (answers : ∀ vs : List Value, vs.length = es.length →
      Instruction.Answers act.constants ⟨op, [es.length]⟩ vs (f vs))
    (listed : act.code.Lists mid [⟨op, [es.length]⟩]) :
    act.Delivers start values (mid + op.length) (fun v => values ++ [v])
      (evaluateAll act.constants es >>= f) :=
  elements.bind fun vs hvs =>
    delivers_of_answers listed (answers vs (length_of_evaluateAll hvs)) floor room

omit room in
/-- Only the branch that the condition selects is run. -/
theorem delivers_conditional {c t e : Except Fault Value} {branch first last second stop : Nat}
    (condition : act.Delivers start values branch (fun v => values ++ [v]) c)
    (test : act.code.Lists branch [⟨.jumpNotTruthy, [second]⟩])
    (hfirst : first = branch + Opcode.jumpNotTruthy.length)
    (consequence : act.Delivers first values last (fun v => values ++ [v]) t)
    (exit : act.code.Lists last [⟨.jump, [stop]⟩])
    (alternative : act.Delivers second values stop (fun v => values ++ [v]) e) :
    act.Delivers start values stop (fun v => values ++ [v])
      (c >>= fun v => if v.isTruthy then t else e) := by
  refine condition.bind fun v _ => ?_
  have branched := delivers_jumpNotTruthy (v := v) test floor
  rw [← hfirst] at branched
  cases truth : v.isTruthy with
  | true =>
    rw [truth] at branched
    exact branched.andThen (consequence.leads fun _ => delivers_jump exit)
  | false =>
    rw [truth] at branched
    exact branched.andThen alternative

end Operations

mutual

theorem delivers {start : Nat} {values : List Value} (e : Expression)
    (listed : act.code.Lists start (e.code start))
    (floor : act.floor ≤ values.length) (room : values.length + e.depth ≤ act.capacity) :
    act.Delivers start values (start + e.size) (fun v => values ++ [v])
      (e.evaluate act.constants) := by
  match e with
  | constant index => exact delivers_of_answers_nil listed (.constant rfl) floor room
  | boolean true => exact delivers_of_answers_nil listed (.literal rfl) floor room
  | boolean false => exact delivers_of_answers_nil listed (.literal rfl) floor room
  | null => exact delivers_of_answers_nil listed (.literal rfl) floor room
  | unary op operand =>
    rw [code, Code.lists_append_iff, totalLength_code] at listed
    rw [depth] at room
    have hpos := operand.depth_pos
    rw [size, evaluate, ← Nat.add_assoc]
    exact delivers_unary floor (by omega) (delivers operand listed.1 floor room) listed.2
  | binary op left right =>
    rw [code, Code.lists_append_iff, Code.lists_append_iff, totalLength_code,
      totalLength_code] at listed
    obtain ⟨hleft, hright, hop⟩ := listed
    rw [depth] at room
    have hpos := left.depth_pos
    rw [size, evaluate, ← Nat.add_assoc, ← Nat.add_assoc]
    refine delivers_binary floor (by omega) (delivers left hleft floor (by omega)) ?_ hop
    intro l
    have hlength : (values ++ [l]).length = values.length + 1 := List.length_append
    exact delivers right hright (by omega) (by omega)
  | array elements =>
    rw [code, Code.lists_append_iff, totalLength_codeAll] at listed
    rw [depth] at room
    rw [size, evaluate, ← Nat.add_assoc]
    have helements := deliversAll elements listed.1 floor (by omega)
    exact delivers_literal floor (by omega) helements (fun vs count => .array rfl count) listed.2
  | hash operands =>
    rw [code, Code.lists_append_iff, totalLength_codeAll] at listed
    rw [depth] at room
    rw [size, evaluate, ← Nat.add_assoc]
    have hoperands := deliversAll operands listed.1 floor (by omega)
    exact delivers_literal floor (by omega) hoperands (fun vs count => .hash rfl count) listed.2
  | conditional condition consequence alternative =>
    rw [code] at listed
    obtain ⟨hcondition, listed⟩ := Code.lists_append_iff.mp listed
    obtain ⟨test, listed⟩ := Code.lists_cons_iff.mp listed
    obtain ⟨hconsequence, listed⟩ := Code.lists_append_iff.mp listed
    obtain ⟨exit, halternative⟩ := Code.lists_cons_iff.mp listed
    simp only [totalLength_code] at test hconsequence exit halternative
    rw [depth] at room
    have hfirst := delivers consequence hconsequence floor (by omega)
    have hsecond := delivers alternative halternative floor (by omega)
    have hcond := delivers condition hcondition floor (by omega)
    have hsize : start + (conditional condition consequence alternative).size =
        start + condition.size + Opcode.jumpNotTruthy.length + consequence.size +
          Opcode.jump.length + alternative.size := by
      rw [size]
      omega
    rw [hsize, evaluate]
    exact delivers_conditional floor hcond test rfl hfirst exit hsecond

theorem deliversAll {start : Nat} {values : List Value} (es : List Expression)
    (listed : act.code.Lists start (codeAll start es))
    (floor : act.floor ≤ values.length) (room : values.length + depthAll es ≤ act.capacity) :
    act.Delivers start values (start + sizeAll es) (fun vs => values ++ vs)
      (evaluateAll act.constants es) := by
  match es with
  | [] =>
    have hnil : act.Delivers start (values ++ []) start (fun vs => values ++ vs) (.ok []) :=
      delivers_pure []
    rw [List.append_nil] at hnil
    exact hnil
  | e :: es =>
    rw [codeAll, Code.lists_append_iff, totalLength_code] at listed
    rw [depthAll] at room
    rw [sizeAll, evaluateAll, ← Nat.add_assoc]
    refine (delivers e listed.1 floor (by omega)).bind fun v _ => ?_
    have hlength : (values ++ [v]).length = values.length + 1 := List.length_append
    refine (deliversAll es listed.2 (hlength ▸ by omega) (hlength ▸ by omega)).bind fun vs _ => ?_
    rw [List.append_assoc]
    exact delivers_pure (v :: vs)

end

end Expression

open Machine

/-- Under the setup, the program ends with the value on an empty stack, or it fails in the main
frame with the fault. -/
def Program.RunsTo (p : Program) (setup : Setup) : Except Fault Value → Prop
  | .ok v => ∃ fuel m, (load p setup).run fuel = some (.ok (), m) ∧ m.stack.size = 0 ∧ m.result = v
  | .error fault => ∃ fuel offset m, (load p setup).run fuel = some (.error ⟨fault, offset, 1⟩, m)

/-- The activation of the main frame. -/
def Program.activation (p : Program) (setup : Setup) : Activation :=
  ⟨p.code, p.constants, setup.limits.stackSize, 0, 1⟩

theorem Program.at_initial (p : Program) (setup : Setup) :
    (p.activation setup).At (initial p setup) 0 [] := by
  refine ⟨rfl, rfl, ?_, rfl, rfl, rfl, ?_⟩
  · exact Array.size_replicate
  · exact Stack.toList_empty _

/-- The value that the code pops in its end is the result of the run. -/
theorem Program.runsTo_of_pop {p : Program} {setup : Setup} {m : Machine} {past : List Machine}
    {stop : Nat} {v : Value} (run : Run (initial p setup) past m)
    (hat : (p.activation setup).At m stop [v]) (listed : p.code.Lists stop [⟨.pop, []⟩])
    (size : p.code.size = stop + Opcode.pop.length) : p.RunsTo setup (.ok v) := by
  have hat : (p.activation setup).At m stop ([] ++ [v]) := hat
  obtain ⟨m', events, hpop, hat', hlast⟩ := hat.exists_popped listed (Nat.zero_le _)
  have beyond : m'.calls.top.code.size ≤ m'.calls.top.ip := by
    rw [hat'.code_eq, hat'.ip_eq]
    exact Nat.le_of_eq size
  have hloop : loop 2 m = some (.ok (), m') := by
    rw [loop, hpop]
    simp only [loop, step_of_end beyond hat'.depth_eq]
  have hsize : m'.stack.size = 0 := by
    rw [← Stack.length_toList, hat'.toList_eq]
    rfl
  refine ⟨past.length + 2, m', (run.loop_eq 2).trans hloop, hsize, ?_⟩
  rw [result, hlast]
  rfl

theorem Expression.runsTo_of_encode (e : Expression) (constants : Pool) (setup : Setup)
    (parts : List (List UInt8)) (encoded : e.listing.mapM Instruction.encode = .ok parts)
    (room : e.depth ≤ setup.limits.stackSize) :
    (Program.mk (.ofParts parts) constants).RunsTo setup (e.evaluate constants) := by
  obtain ⟨listed, size⟩ := Code.lists_ofParts encoded
  have size : (Code.ofParts parts).size = 0 + e.size + Opcode.pop.length := by
    rw [size, listing, Instruction.totalLength_append, totalLength_code, Nat.zero_add]
    rfl
  have room : ([] : List Value).length + e.depth ≤ setup.limits.stackSize := by
    rwa [List.length_nil, Nat.zero_add]
  rw [listing, Code.lists_append_iff, totalLength_code] at listed
  obtain ⟨hcode, hpop⟩ := listed
  have hinitial := Program.at_initial (Program.mk (.ofParts parts) constants) setup
  have hdelivers := e.delivers hcode (Nat.zero_le _) room _ hinitial
  change Activation.Reaches _ _ _ _ (e.evaluate constants) at hdelivers
  cases hvalue : e.evaluate constants with
  | ok v =>
    rw [hvalue] at hdelivers
    obtain ⟨past, m, run, hat⟩ := hdelivers
    exact Program.runsTo_of_pop run hat hpop size
  | error fault =>
    rw [hvalue] at hdelivers
    obtain ⟨past, m, offset, m', events, run, failed⟩ := hdelivers
    exact ⟨_, offset, m', run.run_of_failed failed⟩

/-- Looks an element up if the first constant is the greater one, and negates null otherwise. -/
def Expression.pick (j k : Nat) : Expression :=
  .conditional (.binary (.comparison .greaterThan) (.constant j) (.constant k))
    (.binary .index (.hash [.constant k, .array [.constant j, .boolean true]]) (.constant k))
    (.unary .minus .null)

/-- The integers one and two. -/
def Pool.oneTwo : Pool :=
  (empty.push (.integer 1) (Value.given_integer 1)).push (.integer 2) (Value.given_integer 2)

theorem Expression.runsTo_pick :
    (∃ parts, (pick 1 0).listing.mapM Instruction.encode = .ok parts ∧ (pick 1 0).depth = 3 ∧
      (Program.mk (.ofParts parts) .oneTwo).RunsTo { limits := ⟨3, 0, 1⟩ }
        (.ok (.array #[.integer 2, .boolean true]))) ∧
      ∃ parts, (pick 0 1).listing.mapM Instruction.encode = .ok parts ∧
        (Program.mk (.ofParts parts) .oneTwo).RunsTo { limits := ⟨3, 0, 1⟩ }
          (.error (.operandKind .minus .null)) := by
  have found := runsTo_of_encode (pick 1 0) .oneTwo { limits := ⟨3, 0, 1⟩ } _ rfl (by decide)
  have failed := runsTo_of_encode (pick 0 1) .oneTwo { limits := ⟨3, 0, 1⟩ } _ rfl (by decide)
  have hvalue : (pick 1 0).evaluate .oneTwo = .ok (.array #[.integer 2, .boolean true]) := by
    -- The look-up in the hash does not recurse on a structure, so it opens only like this.
    with_unfolding_all rfl
  rw [hvalue] at found
  exact ⟨⟨_, rfl, rfl, found⟩, ⟨_, rfl, failed⟩⟩

end BytecodeMachine
