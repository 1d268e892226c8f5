import Mathlib.Data.List.Basic
import Mathlib.Tactic.Common

/-!
# Sorted maps

The entries of a map in ascending order of their keys, so the first one has the least key.
`put` replaces the value of a key in place, or files the key where it belongs.
-/

namespace LnConv

variable {K V : Type*} [LT K] [DecidableLT K] [DecidableEq K]

/-- The entries with the value of `key` set. -/
def insertEntry (key : K) (value : V) : List (K × V) → List (K × V)
  | [] => [(key, value)]
  | e :: entries =>
    if key = e.1 then (key, value) :: entries
    else if key < e.1 then (key, value) :: e :: entries
    else e :: insertEntry key value entries

theorem mem_insertEntry {key : K} {value : V} {e : K × V} {entries : List (K × V)}
    (h : e ∈ insertEntry key value entries) : e = (key, value) ∨ e ∈ entries := by
  induction entries with
  | nil => exact .inl (List.mem_singleton.1 h)
  | cons e' entries ih =>
    unfold insertEntry at h
    split_ifs at h
    · exact (List.mem_cons.1 h).imp_right (List.mem_cons_of_mem _)
    · exact List.mem_cons.1 h
    · rcases List.mem_cons.1 h with rfl | h
      · exact .inr List.mem_cons_self
      · exact (ih h).imp_right (List.mem_cons_of_mem _)

theorem insertEntry_of_lookup_eq_none {key : K} {entries : List (K × V)}
    (h : entries.lookup key = none) (value : V) :
    ∃ l r, entries = l ++ r ∧ insertEntry key value entries = l ++ (key, value) :: r := by
  induction entries with
  | nil => exact ⟨[], [], rfl, rfl⟩
  | cons e entries ih =>
    rw [List.lookup_cons] at h
    unfold insertEntry
    split at h
    · cases h
    · next hne =>
      rw [if_neg (beq_eq_false_iff_ne.1 hne)]
      split_ifs
      · exact ⟨[], e :: entries, rfl, rfl⟩
      · obtain ⟨l, r, hl, hi⟩ := ih h
        exact ⟨e :: l, r, by rw [hl]; rfl, by rw [hi]; rfl⟩

section Order

variable [LE K] [Std.IsLinearOrder K] [Std.LawfulOrderLT K]

theorem sorted_insertEntry (key : K) (value : V) {entries : List (K × V)}
    (h : entries.Pairwise fun a b => a.1 < b.1) :
    (insertEntry key value entries).Pairwise fun a b => a.1 < b.1 := by
  induction entries with
  | nil => exact List.pairwise_singleton _ _
  | cons e entries ih =>
    obtain ⟨he, h⟩ := List.pairwise_cons.1 h
    unfold insertEntry
    split_ifs with heq hlt
    · exact h.cons fun e' he' => heq ▸ he e' he'
    · refine (h.cons he).cons fun e' he' => ?_
      rcases List.mem_cons.1 he' with rfl | he'
      · exact hlt
      · exact Std.lt_trans hlt (he e' he')
    · have hgt : e.1 < key := Std.lt_of_le_of_ne (Std.not_lt.1 hlt) (Ne.symm heq)
      refine (ih h).cons fun e' he' => ?_
      rcases mem_insertEntry he' with rfl | he'
      · exact hgt
      · exact he e' he'

theorem insertEntry_of_lookup_eq_some {key : K} {old : V} {entries : List (K × V)}
    (hs : entries.Pairwise fun a b => a.1 < b.1) (h : entries.lookup key = some old) (value : V) :
    ∃ l r, entries = l ++ (key, old) :: r ∧ insertEntry key value entries = l ++ (key, value) :: r := by
  induction entries with
  | nil => cases h
  | cons e entries ih =>
    obtain ⟨he, hs⟩ := List.pairwise_cons.1 hs
    rw [List.lookup_cons] at h
    unfold insertEntry
    split at h
    · next heq =>
      have heq : key = e.1 := beq_iff_eq.1 heq
      cases h
      rw [if_pos heq]
      exact ⟨[], entries, by rw [heq]; rfl, rfl⟩
    · next hne =>
      have hne : key ≠ e.1 := beq_eq_false_iff_ne.1 hne
      obtain ⟨l, r, hl, hi⟩ := ih hs h
      -- the entry of the key comes later, so its key is not below this one
      have hlt : e.1 < key := he (key, old) (hl ▸ List.mem_append_right _ List.mem_cons_self)
      rw [if_neg hne, if_neg (Std.not_lt.2 (Std.le_of_lt hlt)), hi]
      exact ⟨e :: l, r, by rw [hl]; rfl, rfl⟩

end Order

structure SortedMap (K V : Type*) [LT K] where
  entries : List (K × V)
  sorted : entries.Pairwise fun a b => a.1 < b.1

namespace SortedMap

def empty {K V : Type*} [LT K] : SortedMap K V := ⟨[], .nil⟩

/-- The map without its least key. -/
def tail {K V : Type*} [LT K] (m : SortedMap K V) : SortedMap K V :=
  ⟨m.entries.tail, m.sorted.tail⟩

def keys {K V : Type*} [LT K] (m : SortedMap K V) : List K := m.entries.map Prod.fst

def get (m : SortedMap K V) (key : K) : Option V := m.entries.lookup key

variable [LE K] [Std.IsLinearOrder K] [Std.LawfulOrderLT K] {m : SortedMap K V} {key : K}

def put (m : SortedMap K V) (key : K) (value : V) : SortedMap K V :=
  ⟨insertEntry key value m.entries, sorted_insertEntry key value m.sorted⟩

theorem put_of_get_eq_some {old : V} (h : m.get key = some old) (value : V) :
    ∃ l r, m.entries = l ++ (key, old) :: r ∧ (m.put key value).entries = l ++ (key, value) :: r :=
  insertEntry_of_lookup_eq_some m.sorted h value

theorem put_of_get_eq_none (h : m.get key = none) (value : V) :
    ∃ l r, m.entries = l ++ r ∧ (m.put key value).entries = l ++ (key, value) :: r :=
  insertEntry_of_lookup_eq_none h value

theorem put_of_entries {old : V} {entries : List (K × V)} (h : m.entries = (key, old) :: entries)
    (value : V) : (m.put key value).entries = (key, value) :: entries := by
  dsimp only [put]
  rw [h]
  exact if_pos rfl

end SortedMap

end LnConv
