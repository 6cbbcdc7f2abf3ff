import Mathlib.Data.List.Nodup
import Mathlib.Logic.Function.Basic
import Mathlib.Tactic.Common

/-! # Hash tables with chains

A table is a chain of entries for every bucket, the newest entry first. It is known by
where each of its entries has been put, which is not always where the hash of its key
says: a search finds an entry exactly when it looks into that bucket.
-/

namespace Ucore.Lib.HashChain

variable {β : Type u} {ν : Type v} {κ : Type w} [DecidableEq β] [DecidableEq κ]

def push (chains : β → List ν) (b : β) (v : ν) : β → List ν := Function.update chains b (v :: chains b)

/-- Follow the chain of a bucket to the first entry with the key. -/
def search (key : ν → κ) (chains : β → List ν) (b : β) (k : κ) : Option ν := (chains b).find? fun v => key v = k

/-- The entries `vs`, their keys distinct, are in the buckets `place` says. -/
structure Holds (key : ν → κ) (place : ν → β) (chains : β → List ν) (vs : List ν) : Prop where
  mem_iff : ∀ b v, v ∈ chains b ↔ v ∈ vs ∧ place v = b
  distinct : (vs.map key).Nodup

variable {key : ν → κ} {place place' : ν → β} {chains : β → List ν} {vs : List ν} {v : ν} {b : β} {k : κ}

omit [DecidableEq κ] in
/-- What the table has after a push. -/
theorem mem_push {w : ν} : (∃ c, w ∈ push chains b v c) ↔ w = v ∨ ∃ c, w ∈ chains c := by
  constructor
  · rintro ⟨c, inside⟩
    rw [push, Function.update_apply] at inside
    split at inside
    · exact (List.mem_cons.mp inside).imp_right fun old => ⟨b, old⟩
    · exact .inr ⟨c, inside⟩
  · rintro (rfl | ⟨c, inside⟩)
    · exact ⟨b, by rw [push, Function.update_self]; exact List.mem_cons_self⟩
    · refine ⟨c, ?_⟩
      rw [push, Function.update_apply]
      split
      · rename_i same
        exact List.mem_cons_of_mem _ (same ▸ inside)
      · exact inside

omit [DecidableEq β] [DecidableEq κ] in
theorem Holds.empty (key : ν → κ) (place : ν → β) : Holds key place (fun _ => []) [] where
  mem_iff b v := by simp
  distinct := .nil

omit [DecidableEq κ] in
/-- A new entry may be put anywhere. -/
theorem Holds.push (holds : Holds key place chains vs) (new : key v ∉ vs.map key)
    (kept : ∀ w ∈ vs, place' w = place w) (here : place' v = b) :
    Holds key place' (push chains b v) (v :: vs) where
  mem_iff c w := by
    rw [HashChain.push, Function.update_apply, List.mem_cons]
    by_cases same : c = b
    · rw [if_pos same, List.mem_cons, holds.mem_iff, same]
      constructor
      · rintro (rfl | ⟨inside, placed⟩)
        · exact ⟨.inl rfl, here⟩
        · exact ⟨.inr inside, (kept w inside).trans placed⟩
      · rintro ⟨rfl | inside, placed⟩
        · exact .inl rfl
        · exact .inr ⟨inside, (kept w inside).symm.trans placed⟩
    · rw [if_neg same, holds.mem_iff]
      constructor
      · rintro ⟨inside, placed⟩
        exact ⟨.inr inside, (kept w inside).trans placed⟩
      · rintro ⟨rfl | inside, placed⟩
        · exact absurd (placed.symm.trans here) same
        · exact ⟨inside, (kept w inside).symm.trans placed⟩
  distinct := List.nodup_cons.mpr ⟨new, holds.distinct⟩

omit [DecidableEq β] in
theorem Holds.search_some (holds : Holds key place chains vs) (found : search key chains b k = some v) :
    v ∈ vs ∧ key v = k :=
  ⟨((holds.mem_iff b v).mp (List.mem_of_find?_eq_some found)).1, by simpa using List.find?_some found⟩

omit [DecidableEq β] in
/-- An entry is found in the bucket it was put in, and nowhere else. -/
theorem Holds.search_key (holds : Holds key place chains vs) (inside : v ∈ vs) (b : β) :
    search key chains b (key v) = some v ↔ place v = b := by
  constructor
  · intro found
    exact ((holds.mem_iff b v).mp (List.mem_of_find?_eq_some found)).2
  · intro placed
    cases found : search key chains b (key v) with
    | none =>
        have absent := List.find?_eq_none.mp found v ((holds.mem_iff b v).mpr ⟨inside, placed⟩)
        simp at absent
    | some w =>
        obtain ⟨member, same⟩ := holds.search_some found
        rw [List.inj_on_of_nodup_map holds.distinct member inside same]

omit [DecidableEq β] in
/-- No search finds a key that was never put in. -/
theorem Holds.search_none (holds : Holds key place chains vs) (absent : k ∉ vs.map key) (b : β) :
    search key chains b k = none := by
  cases found : search key chains b k with
  | none => rfl
  | some w =>
      obtain ⟨member, same⟩ := holds.search_some found
      exact absurd (List.mem_map.mpr ⟨w, member, same⟩) absent

end Ucore.Lib.HashChain
