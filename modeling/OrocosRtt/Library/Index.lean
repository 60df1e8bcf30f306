import Mathlib.Data.List.Nodup
import Mathlib.Logic.Function.Basic

/-! Maps that index the members of a list by their keys. -/
namespace Library.Index

variable {N E : Type*}

/-- The map has the members of the list, each one under its own key. -/
structure Indexes (key : E → N) (m : N → Option E) (l : List E) : Prop where
  nodup : (l.map key).Nodup
  mem : ∀ n e, m n = some e ↔ e ∈ l ∧ key e = n

variable {key : E → N} {m : N → Option E} {l l' : List E} {e : E}

theorem indexes_nil : Indexes key (fun _ => none) [] :=
  ⟨List.nodup_nil, by simp⟩

namespace Indexes

theorem perm (h : Indexes key m l) (hp : l.Perm l') : Indexes key m l' :=
  ⟨(hp.map key).nodup_iff.mp h.nodup, fun n e => by rw [h.mem, hp.mem_iff]⟩

theorem none_iff (h : Indexes key m l) (n : N) : m n = none ↔ n ∉ l.map key := by
  rw [← not_iff_not, not_not, List.mem_map, ← ne_eq, Option.ne_none_iff_exists']
  exact exists_congr fun e => h.mem n e

variable [DecidableEq N]

theorem insert (h : Indexes key m l) (hfree : m (key e) = none) :
    Indexes key (Function.update m (key e) (some e)) (l ++ [e]) := by
  have hnew : key e ∉ l.map key := (h.none_iff _).mp hfree
  refine ⟨?_, fun n e' => ?_⟩
  · rw [List.map_append]
    exact List.Nodup.append h.nodup (List.nodup_singleton _) (by simpa using hnew)
  · rw [List.mem_append, List.mem_singleton]
    by_cases hn : n = key e
    · subst hn
      rw [Function.update_self, Option.some_inj]
      constructor
      · rintro rfl
        exact ⟨.inr rfl, rfl⟩
      · rintro ⟨hmem | rfl, hkey⟩
        · exact absurd (hkey ▸ List.mem_map_of_mem hmem) hnew
        · rfl
    · rw [Function.update_of_ne hn, h.mem]
      constructor
      · rintro ⟨hmem, hkey⟩
        exact ⟨.inl hmem, hkey⟩
      · rintro ⟨hmem | rfl, hkey⟩
        · exact ⟨hmem, hkey⟩
        · exact absurd hkey.symm hn

theorem erase (h : Indexes key m (e :: l)) :
    Indexes key (Function.update m (key e) none) l := by
  have hnodup := h.nodup
  rw [List.map_cons, List.nodup_cons] at hnodup
  refine ⟨hnodup.2, fun n e' => ?_⟩
  by_cases hn : n = key e
  · subst hn
    rw [Function.update_self]
    constructor
    · intro hc
      cases hc
    · rintro ⟨hmem, hkey⟩
      exact absurd (hkey ▸ List.mem_map_of_mem hmem) hnodup.1
  · rw [Function.update_of_ne hn, h.mem, List.mem_cons]
    constructor
    · rintro ⟨rfl | hmem, hkey⟩
      · exact absurd hkey.symm hn
      · exact ⟨hmem, hkey⟩
    · rintro ⟨hmem, hkey⟩
      exact ⟨.inr hmem, hkey⟩

end Indexes
end Library.Index
