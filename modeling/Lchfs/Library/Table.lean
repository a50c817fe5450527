import Mathlib

/-!
# Finite tables

A table is an association list without repeated keys. Mathlib provides lookup,
insertion and removal; this file adds the update of one entry, the update of all
entries, and the search for an entry by its value.
-/

namespace Lchfs.Library

open List Option

universe u v

theorem le_foldr_max {l : List Nat} {k : Nat} (init : Nat) (h : k ∈ l) : k ≤ l.foldr max init := by
  induction l with
  | nil => simp at h
  | cons _ l ih =>
    rcases mem_cons.1 h with rfl | h
    · exact Nat.le_max_left _ _
    · exact Nat.le_trans (ih h) (Nat.le_max_right _ _)

/-- What an updated function returns, at the key or elsewhere. -/
theorem of_update {ι : Type u} {β : Type v} [DecidableEq ι] {f : ι → β} {i j : ι} {b c : β}
    (h : Function.update f i b j = c) : j = i ∧ b = c ∨ j ≠ i ∧ f j = c := by
  by_cases heq : j = i
  · exact .inl ⟨heq, by simpa [heq] using h⟩
  · exact .inr ⟨heq, by simpa [heq] using h⟩

/-- A finite map, executable and with a list of its entries. -/
abbrev Table (κ : Type u) (α : Type v) := AList fun _ : κ ↦ α

namespace Table

variable {κ : Type u} {α : Type v} {k k' : κ} {a : α}

/-- The entries as pairs. -/
def toList (t : Table κ α) : List (κ × α) :=
  t.entries.map fun entry ↦ (entry.1, entry.2)

/-- The largest key, zero in an empty table. -/
def maxKey (t : Table Nat α) : Nat :=
  (t.toList.map (·.1)).foldr max 0

/-- Applies a function to every value. -/
def mapVal (f : α → α) (t : Table κ α) : Table κ α where
  entries := t.entries.map fun entry ↦ ⟨entry.1, f entry.2⟩
  nodupKeys := by
    have h := t.nodupKeys
    rw [List.NodupKeys, List.keys] at h ⊢
    simpa [List.map_map, Function.comp_def] using h

/-- Keeps the entries whose value satisfies a predicate. -/
def filterVal (p : α → Bool) (t : Table κ α) : Table κ α where
  entries := t.entries.filter fun entry ↦ p entry.2
  nodupKeys := t.nodupKeys.sublist List.filter_sublist

theorem nodup_toList (t : Table κ α) : (t.toList.map (·.1)).Nodup := by
  have h := t.nodupKeys
  rw [List.NodupKeys, keys] at h
  simpa [toList, List.map_map, Function.comp_def] using h

variable [DecidableEq κ]

/-- Applies a function to the value at one key, if there is one. -/
def modify (k : κ) (f : α → α) (t : Table κ α) : Table κ α :=
  match t.lookup k with
  | some a => t.insert k (f a)
  | none => t

/-- Adds a value, if there is one, to the list at its key. -/
def push (t : Table κ (List α)) : Option (κ × α) → Table κ (List α)
  | some (k, a) => t.insert k ((t.lookup k).getD [] ++ [a])
  | none => t

theorem mem_toList {t : Table κ α} : (k, a) ∈ t.toList ↔ t.lookup k = some a := by
  rw [← mem_def, AList.mem_lookup_iff]
  simp only [toList, List.mem_map, Prod.mk.injEq]
  constructor
  · rintro ⟨⟨_, _⟩, hmem, rfl, rfl⟩
    exact hmem
  · intro hmem
    exact ⟨⟨k, a⟩, hmem, rfl, rfl⟩

@[simp]
theorem lookup_mapVal (f : α → α) (t : Table κ α) (k : κ) :
    (t.mapVal f).lookup k = (t.lookup k).map f := by
  ext a
  rw [← mem_def, AList.mem_lookup_iff]
  simp only [mapVal, List.mem_map, Sigma.mk.injEq, heq_eq_eq, map_eq_some_iff]
  constructor
  · rintro ⟨⟨_, b⟩, hmem, rfl, rfl⟩
    exact ⟨b, AList.mem_lookup_iff.2 hmem, rfl⟩
  · rintro ⟨b, hb, rfl⟩
    exact ⟨⟨k, b⟩, AList.mem_lookup_iff.1 hb, rfl, rfl⟩

@[simp]
theorem lookup_filterVal (p : α → Bool) (t : Table κ α) (k : κ) :
    (t.filterVal p).lookup k = (t.lookup k).filter p := by
  ext a
  rw [← mem_def, AList.mem_lookup_iff, filter_eq_some_iff, ← mem_def, AList.mem_lookup_iff]
  simp [filterVal]

theorem lookup_insert_eq (t : Table κ α) (k k' : κ) (a : α) :
    (t.insert k a).lookup k' = if k' = k then some a else t.lookup k' := by
  split_ifs with h
  · subst h
    exact AList.lookup_insert t
  · exact AList.lookup_insert_ne h

theorem lookup_erase_eq (t : Table κ α) (k k' : κ) :
    (t.erase k).lookup k' = if k' = k then none else t.lookup k' := by
  split_ifs with h
  · subst h
    exact AList.lookup_erase k' t
  · exact AList.lookup_erase_ne h

theorem of_lookup_insert {t : Table κ α} (h : (t.insert k a).lookup k' = some b) :
    k' = k ∧ a = b ∨ k' ≠ k ∧ t.lookup k' = some b := by
  rw [lookup_insert_eq] at h
  split_ifs at h with hk
  · exact .inl ⟨hk, some.inj h⟩
  · exact .inr ⟨hk, h⟩

theorem of_lookup_erase {t : Table κ α} (h : (t.erase k).lookup k' = some b) : k' ≠ k ∧ t.lookup k' = some b := by
  rw [lookup_erase_eq] at h
  split_ifs at h with hk
  exact ⟨hk, h⟩

theorem lookup_modify (k k' : κ) (f : α → α) (t : Table κ α) :
    (t.modify k f).lookup k' = if k' = k then (t.lookup k').map f else t.lookup k' := by
  unfold modify
  cases hk : t.lookup k with
  | none =>
    split_ifs with h
    · subst h
      simp [hk]
    · rfl
  | some =>
    simp only [lookup_insert_eq]
    split_ifs with h
    · subst h
      simp [hk]
    · rfl

@[simp]
theorem lookup_modify_self (k : κ) (f : α → α) (t : Table κ α) :
    (t.modify k f).lookup k = (t.lookup k).map f := by
  simp [lookup_modify]

theorem lookup_modify_of_ne (h : k' ≠ k) (f : α → α) (t : Table κ α) :
    (t.modify k f).lookup k' = t.lookup k' := by
  simp [lookup_modify, h]

@[simp]
theorem lookup_empty (k : κ) : (∅ : Table κ α).lookup k = none :=
  AList.lookup_empty k

/-- The value that belongs to a key. -/
def ofKey (k : κ) (p : κ × α) : Option α := if p.1 = k then some p.2 else none

/-- A loop that groups values by key: the list at a key has those of its key, in order. -/
theorem lookup_foldl_push {β : Type*} (g : β → Option (κ × α)) (l : List β) (t : Table κ (List α)) (k : κ) :
    (l.foldl (fun t b ↦ push t (g b)) t).lookup k =
      if (l.filterMap fun b ↦ (g b).bind (ofKey k)) = [] then t.lookup k
      else some ((t.lookup k).getD [] ++ l.filterMap fun b ↦ (g b).bind (ofKey k)) := by
  induction l generalizing t with
  | nil => simp
  | cons b l ih =>
    rw [foldl_cons, ih]
    cases hb : g b with
    | none =>
      rw [filterMap_cons_none (by rw [hb]; rfl)]
      rfl
    | some p =>
      obtain ⟨k', a⟩ := p
      by_cases hk : k' = k
      · subst hk
        have hlookup : (push t (some (k', a))).lookup k' = some ((t.lookup k').getD [] ++ [a]) := AList.lookup_insert t
        rw [filterMap_cons_some (b := a) (by rw [hb]; exact if_pos rfl)]
        simp only [hlookup, getD_some, append_assoc, singleton_append, reduceCtorEq, if_false]
        split_ifs with hrest <;> simp [hrest]
      · have hlookup : (push t (some (k', a))).lookup k = t.lookup k := AList.lookup_insert_ne (Ne.symm hk)
        rw [filterMap_cons_none (by rw [hb]; exact if_neg hk)]
        simp only [hlookup]

theorem le_maxKey {t : Table Nat α} {k : Nat} (h : t.lookup k = some a) : k ≤ t.maxKey :=
  le_foldr_max 0 (mem_map_of_mem (f := (·.1)) (mem_toList.2 h))

end Table

end Lchfs.Library
