import BytecodeMachine.Value.Basic

/-!
# Occurrences in values

A value occurs in the arrays, hashes and closures that hold it, at any depth. It is given if every
object in it was there before the run.
-/

namespace BytecodeMachine

namespace Value

inductive Occurs (w : Value) : Value → Prop where
  | here : Occurs w w
  | element {elements : Array Value} {v : Value} (member : v ∈ elements) (inside : Occurs w v) :
    Occurs w (array elements)
  | entry {entries : Array (Key × Value)} {key : Key} {v : Value} (member : (key, v) ∈ entries)
    (inside : Occurs w v) : Occurs w (hash entries)
  | code {c : Closure Value} (inside : Occurs w (function c.function)) : Occurs w (closure c)
  | captured {c : Closure Value} {v : Value} (member : v ∈ c.captured) (inside : Occurs w v) :
    Occurs w (closure c)

theorem Occurs.trans {u v w : Value} (inner : u.Occurs v) (outer : v.Occurs w) : u.Occurs w := by
  induction outer with
  | here => exact inner
  | element member _ ih => exact .element member ih
  | entry member _ ih => exact .entry member ih
  | code _ ih => exact .code ih
  | captured member _ ih => exact .captured member ih

def Given (v : Value) : Prop :=
  ∀ w : Value, w.Occurs v → ∀ i : Identity, w.identity? = some i → i.IsGiven

theorem Given.of_occurs {v w : Value} (hw : w.Given) (h : v.Occurs w) : v.Given :=
  fun u hu => hw u (hu.trans h)

theorem given_null : null.Given := by
  rintro _ ⟨⟩ _ ⟨⟩

theorem given_integer (n : Int64) : (integer n).Given := by
  rintro _ ⟨⟩ _ ⟨⟩

theorem given_boolean (b : Bool) : (boolean b).Given := by
  rintro _ ⟨⟩ _ ⟨⟩

theorem given_string (s : String) : (string s).Given := by
  rintro _ ⟨⟩ _ ⟨⟩

theorem given_builtin (b : Builtin) : (builtin b).Given := by
  rintro _ ⟨⟩ _ ⟨⟩

theorem given_error (message : String) : (error message).Given := by
  rintro _ ⟨⟩ _ ⟨⟩

theorem given_array {elements : Array Value} (h : ∀ v ∈ elements, v.Given) :
    (array elements).Given := by
  intro w hw i hi
  cases hw with
  | here => cases hi
  | element member inside => exact h _ member w inside i hi

theorem given_hash {entries : Array (Key × Value)} (h : ∀ key v, (key, v) ∈ entries → v.Given) :
    (hash entries).Given := by
  intro w hw i hi
  cases hw with
  | here => cases hi
  | entry member inside => exact h _ _ member w inside i hi

theorem given_function {f : Function} (h : f.identity.IsGiven) : (function f).Given := by
  intro w hw i hi
  cases hw
  obtain rfl := Option.some.inj hi
  exact h

theorem given_closure {c : Closure Value} (h : c.identity.IsGiven)
    (hf : (function c.function).Given) (hc : ∀ v ∈ c.captured, v.Given) : (closure c).Given := by
  intro w hw i hi
  cases hw with
  | here =>
    obtain rfl := Option.some.inj hi
    exact h
  | code inside => exact hf w inside i hi
  | captured member inside => exact hc _ member w inside i hi

end Value

theorem exists_mem_of_mapM_entry {pairs : List (Value × Value)} {entries : List (Key × Value)}
    (h : pairs.mapM Value.entry = .ok entries) {key : Key} {v : Value} (hmem : (key, v) ∈ entries) :
    ∃ k, (k, v) ∈ pairs := by
  induction pairs generalizing entries with
  | nil =>
    cases h
    cases hmem
  | cons pair pairs ih =>
    rw [List.mapM_cons] at h
    cases hfirst : Value.entry pair with
    | error kind => simp [hfirst, bind, Except.bind] at h
    | ok first =>
      cases hrest : pairs.mapM Value.entry with
      | error kind => simp [hfirst, hrest, bind, Except.bind] at h
      | ok rest =>
        simp only [hfirst, hrest, bind, Except.bind, pure, Except.pure, Except.ok.injEq] at h
        subst h
        rcases List.mem_cons.mp hmem with rfl | hlater
        · refine ⟨pair.1, List.mem_cons.mpr (Or.inl ?_)⟩
          unfold Value.entry at hfirst
          split at hfirst
          · cases hfirst
            rfl
          · cases hfirst
        · obtain ⟨k, hk⟩ := ih hrest hlater
          exact ⟨k, List.mem_cons_of_mem _ hk⟩

/-- The values in a table stem from the pairs that it was made from. -/
theorem Table.exists_mem_of_ofPairs {pairs : List (Value × Value)} {table : Table Value}
    (h : ofPairs pairs = .ok table) {key : Key} {v : Value} (hmem : (key, v) ∈ table) :
    ∃ k, (k, v) ∈ pairs := by
  unfold ofPairs at h
  cases hentries : pairs.mapM Value.entry with
  | error kind => simp [hentries, Functor.map, Except.map] at h
  | ok entries =>
    simp only [hentries, Functor.map, Except.map, Except.ok.injEq] at h
    subst h
    rw [← get?_eq_some_iff (sorted_ofEntries entries), get?_ofEntries,
      List.lookup_eq_some_iff] at hmem
    obtain ⟨before, after, heq, -⟩ := hmem
    have hlast : (key, v) ∈ entries.reverse := by simp [heq]
    exact exists_mem_of_mapM_entry hentries (List.mem_reverse.mp hlast)

end BytecodeMachine
