import Std.Data.TreeMap
import BytecodeMachine.Value.Key

/-!
# Tables

A table is an array of entries in the order of their keys. `ofEntries` sorts entries, of which the
last one with a key wins, and `get?` halves the table at each step. Two tables with the same
entries are the same array.
-/

namespace BytecodeMachine

abbrev Table (α : Type) := Array (Key × α)

namespace Table

variable {α : Type}

def Sorted (table : Table α) : Prop :=
  table.toList.Pairwise fun a b => compare a.1 b.1 = .lt

/-- Looks for the key between two positions. -/
def search (table : Table α) (key : Key) (lo hi : Nat) (h : hi ≤ table.size) : Option α :=
  if hlt : lo < hi then
    let mid := lo + (hi - lo) / 2
    have hmid : mid < table.size := by omega
    match compare key table[mid].1 with
    | .lt => search table key lo mid (Nat.le_of_lt hmid)
    | .eq => some table[mid].2
    | .gt => search table key (mid + 1) hi h
  else none
termination_by hi - lo

def get? (key : Key) (table : Table α) : Option α :=
  search table key 0 table.size (Nat.le_refl _)

theorem mem_of_search {table : Table α} {key : Key} {value : α} {lo hi : Nat}
    {h : hi ≤ table.size} (hs : search table key lo hi h = some value) :
    (key, value) ∈ table := by
  fun_induction search table key lo hi h with
  | case1 lo hi h hlt mid hmid hcompare ih => exact ih hs
  | case2 lo hi h hlt mid hmid hcompare =>
    obtain rfl := Key.eq_of_compare hcompare
    obtain rfl := Option.some.inj hs
    exact Array.getElem_mem hmid
  | case3 lo hi h hlt mid hmid hcompare ih => exact ih hs
  | case4 => cases hs

theorem Sorted.compare_lt {table : Table α} (hs : table.Sorted) {i j : Nat} (hij : i < j)
    (hj : j < table.size) (hi : i < table.size) : compare table[i].1 table[j].1 = .lt := by
  have := List.pairwise_iff_getElem.mp hs i j (by simpa using hi) (by simpa using hj) hij
  simpa using this

theorem search_of_sorted {table : Table α} (hs : table.Sorted) {lo hi i : Nat}
    {h : hi ≤ table.size} (hlo : lo ≤ i) (hhi : i < hi) (hi' : i < table.size) :
    search table table[i].1 lo hi h = some table[i].2 := by
  induction hn : hi - lo using Nat.strongRecOn generalizing lo hi with
  | ind n ih =>
    unfold search
    rw [dif_pos (by omega)]
    have hmid : lo + (hi - lo) / 2 < table.size := by omega
    rcases Nat.lt_trichotomy i (lo + (hi - lo) / 2) with hlt | heq | hgt
    · simp only [hs.compare_lt hlt hmid hi']
      exact ih _ (by omega) hlo hlt rfl
    · subst heq
      simp only [Key.compare_self]
    · have : compare table[i].1 table[lo + (hi - lo) / 2].1 = .gt := by
        rw [Key.compare_swap, hs.compare_lt hgt hi' hmid]
        rfl
      simp only [this]
      exact ih _ (by omega) (by omega) hhi rfl

theorem get?_eq_some_iff {table : Table α} (hs : table.Sorted) {key : Key} {value : α} :
    get? key table = some value ↔ (key, value) ∈ table := by
  refine ⟨mem_of_search, fun hmem => ?_⟩
  obtain ⟨i, hi, hentry⟩ := Array.mem_iff_getElem.mp hmem
  have := search_of_sorted hs (Nat.zero_le i) hi hi (h := Nat.le_refl _)
  rwa [hentry] at this

/-- Sorted tables in which every key finds the same are equal. -/
theorem eq_of_get?_eq {table other : Table α} (hs : table.Sorted) (ho : other.Sorted)
    (h : ∀ key, get? key table = get? key other) : table = other := by
  have nodup {t : Table α} (ht : t.Sorted) : t.toList.Nodup :=
    List.Pairwise.imp (fun hlt heq => by simp [heq] at hlt) ht
  have hmem (entry : Key × α) : entry ∈ table.toList ↔ entry ∈ other.toList := by
    simp only [Array.mem_toList_iff, ← get?_eq_some_iff hs, ← get?_eq_some_iff ho, h]
  have hperm := (List.perm_ext_iff_of_nodup (nodup hs) (nodup ho)).mpr hmem
  refine Array.toList_inj.mp (hperm.eq_of_pairwise (fun a b _ _ hab hba => ?_) hs ho)
  rw [Key.compare_swap, hba] at hab
  cases hab

theorem lookup_map {κ β : Type} [BEq κ] (f : α → β) (entries : List (κ × α)) (key : κ) :
    (entries.map fun pair => (pair.1, f pair.2)).lookup key = (entries.lookup key).map f := by
  induction entries with
  | nil => rfl
  | cons pair entries ih =>
    rw [List.map_cons, List.lookup_cons, List.lookup_cons, ih]
    cases key == pair.1 <;> rfl

/-- The table of some entries, of which the last one with a key counts. -/
def ofEntries (entries : List (Key × α)) : Table α :=
  (entries.foldl (fun tree (key, value) => tree.insert key value) (∅ : Std.TreeMap Key α)).toArray

theorem sorted_ofEntries (entries : List (Key × α)) : (ofEntries entries).Sorted := by
  unfold Sorted ofEntries
  rw [Std.TreeMap.toList_toArray]
  exact Std.TreeMap.ordered_keys_toList

/-- The last entry with a key is the one that counts. -/
theorem get?_ofEntries (key : Key) (entries : List (Key × α)) :
    get? key (ofEntries entries) = entries.reverse.lookup key := by
  have hfold : (entries.foldl (fun tree (k, v) => tree.insert k v)
      (∅ : Std.TreeMap Key α))[key]? = entries.reverse.lookup key := by
    rw [← List.foldr_reverse]
    induction entries.reverse with
    | nil => simp
    | cons entry rest ih =>
      obtain ⟨k, v⟩ := entry
      rw [List.foldr_cons, Std.TreeMap.getElem?_insert, ih, List.lookup_cons]
      by_cases hk : k = key
      · simp [hk]
      · have hne : compare k key ≠ .eq := fun h => hk (Key.eq_of_compare h)
        have hne' : (key == k) = false := beq_false_of_ne (Ne.symm hk)
        simp [hne, hne']
  have hmem (value : α) : get? key (ofEntries entries) = some value ↔
      entries.reverse.lookup key = some value := by
    rw [get?_eq_some_iff (sorted_ofEntries entries), ← Array.mem_toList_iff, ← hfold]
    unfold ofEntries
    rw [Std.TreeMap.toList_toArray, Std.TreeMap.mem_toList_iff_getElem?_eq_some]
  exact Option.ext hmem

end Table
end BytecodeMachine
