import Mathlib.Data.List.Forall2
import Mathlib.Data.List.Perm.Subperm
import BytecodeMachine.Value.Basic

/-!
# Contents of tables

A sorted table has each key once, so its contents are what a look-up finds under each key. Two
tables have corresponding entries, one after the other, exactly if every key finds corresponding
values in them, and it is enough to look up the keys of one table if the other is of the same size.
-/

namespace BytecodeMachine.Table

variable {α β : Type} {r : α → β → Prop} {xs : Table α} {ys : Table β} {key : Key}

def keys (table : Table α) : List Key := table.toList.map Prod.fst

theorem length_keys (table : Table α) : table.keys.length = table.size := by
  rw [keys, List.length_map, Array.length_toList]

theorem Sorted.pairwise_keys (h : xs.Sorted) : xs.keys.Pairwise fun k l => compare k l = .lt :=
  List.pairwise_map.mpr h

theorem Sorted.nodup_keys (h : xs.Sorted) : xs.keys.Nodup := by
  refine h.pairwise_keys.imp fun {k l} hlt heq => ?_
  rw [heq, Key.compare_self] at hlt
  cases hlt

theorem Sorted.mem_keys_iff (h : xs.Sorted) : key ∈ xs.keys ↔ (get? key xs).isSome := by
  rw [keys, List.mem_map, Option.isSome_iff_exists]
  simp only [get?_eq_some_iff h, Array.mem_toList_iff, Prod.exists, exists_and_right,
    exists_eq_right]

/-- Sorted tables with the same keys list them in the same order. -/
theorem Sorted.keys_eq_of_perm (hx : xs.Sorted) (hy : ys.Sorted) (h : xs.keys.Perm ys.keys) :
    xs.keys = ys.keys := by
  refine h.eq_of_pairwise (fun k l _ _ hkl hlk => ?_) hx.pairwise_keys hy.pairwise_keys
  rw [Key.compare_swap, hlk] at hkl
  cases hkl

theorem Sorted.keys_eq_of_isSome_iff (hx : xs.Sorted) (hy : ys.Sorted)
    (h : ∀ key, (get? key xs).isSome ↔ (get? key ys).isSome) : xs.keys = ys.keys := by
  refine hx.keys_eq_of_perm hy ((List.perm_ext_iff_of_nodup hx.nodup_keys hy.nodup_keys).mpr ?_)
  intro key
  rw [hx.mem_keys_iff, hy.mem_keys_iff, h]

/-- Of two tables of the same size, neither has more keys than the other. -/
theorem Sorted.keys_eq_of_subset (hx : xs.Sorted) (hy : ys.Sorted) (size : xs.size = ys.size)
    (h : xs.keys ⊆ ys.keys) : xs.keys = ys.keys := by
  refine hx.keys_eq_of_perm hy ((hx.nodup_keys.subperm h).perm_of_length_le ?_)
  exact Nat.le_of_eq (by rw [length_keys, length_keys, size])

/-- The entries, one after the other, have the same key and corresponding values. -/
def Corresponds (r : α → β → Prop) (xs : List (Key × α)) (ys : List (Key × β)) : Prop :=
  List.Forall₂ (fun p q => p.1 = q.1 ∧ r p.2 q.2) xs ys

namespace Corresponds

variable {entries : List (Key × α)} {others : List (Key × β)}

theorem map_fst_eq (h : Corresponds r entries others) :
    entries.map Prod.fst = others.map Prod.fst := by
  induction h with
  | nil => rfl
  | cons first rest ih => rw [List.map_cons, List.map_cons, first.1, ih]

theorem exists_mem (h : Corresponds r entries others) {x : α} (hx : (key, x) ∈ entries) :
    ∃ y, (key, y) ∈ others ∧ r x y := by
  induction h with
  | nil => cases hx
  | @cons p q _ _ first rest ih =>
    obtain ⟨k, y⟩ := q
    rcases List.mem_cons.mp hx with rfl | hx
    · obtain ⟨rfl, hr⟩ := first
      exact ⟨y, List.mem_cons_self, hr⟩
    · obtain ⟨z, hz, hr⟩ := ih hx
      exact ⟨z, List.mem_cons_of_mem _ hz, hr⟩

theorem of_map_fst_eq (hkeys : entries.map Prod.fst = others.map Prod.fst)
    (h : ∀ key x y, (key, x) ∈ entries → (key, y) ∈ others → r x y) :
    Corresponds r entries others := by
  induction entries generalizing others with
  | nil =>
    obtain rfl := List.map_eq_nil_iff.mp hkeys.symm
    exact .nil
  | cons p entries ih =>
    obtain ⟨⟨l, y⟩, others, rfl, rfl, hrest⟩ := List.map_eq_cons_iff.mp hkeys.symm
    refine .cons ⟨rfl, h p.1 p.2 y List.mem_cons_self List.mem_cons_self⟩ ?_
    exact ih hrest.symm fun key x z hx hz =>
      h key x z (List.mem_cons_of_mem _ hx) (List.mem_cons_of_mem _ hz)

end Corresponds

section Sorted

variable (hx : xs.Sorted) (hy : ys.Sorted)

include hx hy

theorem Sorted.corresponds_iff_keys_eq :
    Corresponds r xs.toList ys.toList ↔
      xs.keys = ys.keys ∧ ∀ key x y, get? key xs = some x → get? key ys = some y → r x y := by
  simp only [get?_eq_some_iff hx, get?_eq_some_iff hy, ← Array.mem_toList_iff]
  refine ⟨fun h => ⟨h.map_fst_eq, fun key x y hkx hky => ?_⟩, fun h => .of_map_fst_eq h.1 h.2⟩
  obtain ⟨z, hkz, hr⟩ := h.exists_mem hkx
  rw [Array.mem_toList_iff, ← get?_eq_some_iff hy] at hky hkz
  rwa [Option.some.inj (hky.symm.trans hkz)]

/-- The tables have the same keys and corresponding values under each of them. -/
theorem Sorted.corresponds_iff :
    Corresponds r xs.toList ys.toList ↔
      (∀ key, (get? key xs).isSome ↔ (get? key ys).isSome) ∧
        ∀ key x y, get? key xs = some x → get? key ys = some y → r x y := by
  rw [hx.corresponds_iff_keys_eq hy]
  refine and_congr_left fun _ => ⟨fun h key => ?_, hx.keys_eq_of_isSome_iff hy⟩
  rw [← hx.mem_keys_iff, ← hy.mem_keys_iff, h]

/-- Every entry of one table is found in the other one, which has no more entries. -/
theorem Sorted.corresponds_iff_of_size :
    Corresponds r xs.toList ys.toList ↔
      xs.size = ys.size ∧ ∀ key x, (key, x) ∈ xs → ∃ y, get? key ys = some y ∧ r x y := by
  rw [hx.corresponds_iff_keys_eq hy]
  simp only [← get?_eq_some_iff hx]
  constructor
  · rintro ⟨hkeys, h⟩
    refine ⟨by rw [← length_keys, ← length_keys, hkeys], fun key x hkx => ?_⟩
    have hmem : key ∈ xs.keys := hx.mem_keys_iff.mpr (Option.isSome_of_mem hkx)
    rw [hkeys, hy.mem_keys_iff] at hmem
    obtain ⟨y, hky⟩ := Option.isSome_iff_exists.mp hmem
    exact ⟨y, hky, h key x y hkx hky⟩
  · rintro ⟨size, h⟩
    refine ⟨hx.keys_eq_of_subset hy size fun key hkey => ?_, fun key x y hkx hky => ?_⟩
    · obtain ⟨x, hkx⟩ := Option.isSome_iff_exists.mp (hx.mem_keys_iff.mp hkey)
      obtain ⟨y, hky, -⟩ := h key x hkx
      exact hy.mem_keys_iff.mpr (Option.isSome_of_mem hky)
    · obtain ⟨z, hkz, hr⟩ := h key x hkx
      rwa [Option.some.inj (hky.symm.trans hkz)]

end Sorted

end BytecodeMachine.Table

namespace BytecodeMachine

namespace Value

variable {pair : Value × Value} {key : Key}

/-- Whether a hash files the pair under the key. -/
def filedUnder (key : Key) (pair : Value × Value) : Bool := pair.1.key? == some key

theorem filedUnder_iff : filedUnder key pair = true ↔ pair.1.key? = some key := beq_iff_eq

/-- A pair as an entry of a table that keeps a part of it. -/
def entryWith {α : Type} (keep : Value × Value → α) (pair : Value × Value) :
    Except Kind (Key × α) :=
  match pair.1.key? with
  | some key => .ok (key, keep pair)
  | none => .error pair.1.kind

end Value

namespace Table

open Value (filedUnder filedUnder_iff entryWith)

variable {α : Type} {keep : Value × Value → α} {pairs front back : List (Value × Value)}
  {pair : Value × Value} {entries : List (Key × α)} {key : Key}

/-- The table of pairs that keeps a part of each of them. A hash keeps the second component. -/
def ofPairsWith (keep : Value × Value → α) (pairs : List (Value × Value)) :
    Except Kind (Table α) :=
  ofEntries <$> pairs.mapM (entryWith keep)

theorem mapM_entryWith_cons (h : pair.1.key? = some key) :
    (pair :: pairs).mapM (entryWith keep) =
      List.cons (key, keep pair) <$> pairs.mapM (entryWith keep) := by
  have hpair : entryWith keep pair = .ok (key, keep pair) := by rw [entryWith, h]
  rw [List.mapM_cons, hpair]
  cases pairs.mapM (entryWith keep) <;> rfl

theorem mapM_entryWith_cons_of_none (h : pair.1.key? = none) :
    (pair :: pairs).mapM (entryWith keep) = .error pair.1.kind := by
  have hpair : entryWith keep pair = .error pair.1.kind := by rw [entryWith, h]
  rw [List.mapM_cons, hpair]
  rfl

theorem exists_of_mapM_entryWith_cons
    (h : (pair :: pairs).mapM (entryWith keep) = .ok entries) :
    ∃ key rest, pair.1.key? = some key ∧ pairs.mapM (entryWith keep) = .ok rest ∧
      entries = (key, keep pair) :: rest := by
  cases hkey : pair.1.key? with
  | none =>
    rw [mapM_entryWith_cons_of_none hkey] at h
    cases h
  | some key =>
    rw [mapM_entryWith_cons hkey] at h
    cases hrest : pairs.mapM (entryWith keep) with
    | error kind =>
      rw [hrest] at h
      cases h
    | ok rest =>
      rw [hrest] at h
      exact ⟨key, rest, rfl, rfl, (Except.ok.inj h).symm⟩

theorem isSome_of_mapM_entryWith (h : pairs.mapM (entryWith keep) = .ok entries) :
    ∀ pair ∈ pairs, pair.1.key?.isSome := by
  induction pairs generalizing entries with
  | nil => nofun
  | cons pair pairs ih =>
    obtain ⟨key, rest, hkey, hrest, -⟩ := exists_of_mapM_entryWith_cons h
    exact List.forall_mem_cons.mpr ⟨Option.isSome_of_mem hkey, ih hrest⟩

theorem lookup_of_mapM_entryWith (h : pairs.mapM (entryWith keep) = .ok entries) :
    entries.reverse.lookup key = (pairs.reverse.find? (filedUnder key)).map keep := by
  induction pairs generalizing entries with
  | nil =>
    cases h
    rfl
  | cons pair pairs ih =>
    obtain ⟨k, rest, hk, hrest, rfl⟩ := exists_of_mapM_entryWith_cons h
    rw [List.reverse_cons, List.reverse_cons, List.lookup_append, List.find?_append, ih hrest,
      Option.map_or]
    congr 1
    by_cases heq : key = k
    · subst heq
      simp [filedUnder_iff.mpr hk]
    · have hother : filedUnder key pair = false := by
        rw [Bool.eq_false_iff, ne_eq, filedUnder_iff, hk, Option.some_inj]
        exact Ne.symm heq
      simp [hother, heq]

theorem ofPairsWith_eq_ok_iff {table : Table α} :
    ofPairsWith keep pairs = .ok table ↔
      ∃ entries, pairs.mapM (entryWith keep) = .ok entries ∧ ofEntries entries = table := by
  rw [ofPairsWith]
  cases pairs.mapM (entryWith keep) <;> simp [Functor.map, Except.map]

theorem exists_ofPairsWith (h : ∀ pair ∈ pairs, pair.1.key?.isSome) :
    ∃ table, ofPairsWith keep pairs = .ok table := by
  have hentries : ∃ entries, pairs.mapM (entryWith keep) = .ok entries := by
    induction pairs with
    | nil => exact ⟨[], rfl⟩
    | cons pair pairs ih =>
      obtain ⟨hpair, hpairs⟩ := List.forall_mem_cons.mp h
      obtain ⟨key, hkey⟩ := Option.isSome_iff_exists.mp hpair
      obtain ⟨entries, hentries⟩ := ih hpairs
      exact ⟨_, by rw [mapM_entryWith_cons hkey, hentries]; rfl⟩
  obtain ⟨entries, hentries⟩ := hentries
  exact ⟨_, ofPairsWith_eq_ok_iff.mpr ⟨entries, hentries, rfl⟩⟩

/-- The first key that can be none is reported. -/
theorem ofPairsWith_eq_error (hfront : ∀ pair ∈ front, pair.1.key?.isSome)
    (hpair : pair.1.key? = none) :
    ofPairsWith keep (front ++ pair :: back) = .error pair.1.kind := by
  have hentries : (front ++ pair :: back).mapM (entryWith keep) = .error pair.1.kind := by
    induction front with
    | nil => exact mapM_entryWith_cons_of_none hpair
    | cons first front ih =>
      obtain ⟨hfirst, hfront⟩ := List.forall_mem_cons.mp hfront
      obtain ⟨key, hkey⟩ := Option.isSome_iff_exists.mp hfirst
      rw [List.cons_append, mapM_entryWith_cons hkey, ih hfront]
      rfl
  rw [ofPairsWith, hentries]
  rfl

section Made

variable {table : Table α} (h : ofPairsWith keep pairs = .ok table)

include h

theorem sorted_of_ofPairsWith : table.Sorted := by
  obtain ⟨entries, -, rfl⟩ := ofPairsWith_eq_ok_iff.mp h
  exact sorted_ofEntries entries

theorem isSome_of_ofPairsWith : ∀ pair ∈ pairs, pair.1.key?.isSome := by
  obtain ⟨entries, hentries, -⟩ := ofPairsWith_eq_ok_iff.mp h
  exact isSome_of_mapM_entryWith hentries

/-- The last pair with a key is the one that is found. -/
theorem get?_of_ofPairsWith :
    get? key table = (pairs.reverse.find? (filedUnder key)).map keep := by
  obtain ⟨entries, hentries, rfl⟩ := ofPairsWith_eq_ok_iff.mp h
  rw [get?_ofEntries]
  exact lookup_of_mapM_entryWith hentries

end Made

end Table
end BytecodeMachine
