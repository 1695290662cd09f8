import Mathlib.Data.Finset.Basic
import Mathlib.Data.List.Nodup

/-!
# What exists and what is held

A heap is the set of what exists; a list says what is still held, once for each holder.
They are balanced when each existing thing has one holder and nothing else is held. What
is made must be handed to a holder, what a holder lets go must be destroyed.
-/

namespace Holding

variable {α : Type} {live : Finset α} {held : List α} {a : α}

structure Balanced (live : Finset α) (held : List α) : Prop where
  listed : ∀ a, a ∈ live ↔ a ∈ held
  once : held.Nodup

theorem Balanced.empty : Balanced (∅ : Finset α) [] := ⟨by simp, List.nodup_nil⟩

theorem Balanced.perm {held' : List α} (h : Balanced live held) (p : held.Perm held') :
    Balanced live held' :=
  ⟨fun a => (h.listed a).trans p.mem_iff, p.nodup_iff.mp h.once⟩

theorem not_balanced_of_unheld (exist : a ∈ live) (unheld : a ∉ held) : ¬ Balanced live held :=
  fun h => unheld ((h.listed a).mp exist)

variable [DecidableEq α]

/-- Something new, handed to a holder. -/
theorem Balanced.keep (h : Balanced live held) (new : a ∉ live) :
    Balanced (insert a live) (a :: held) := by
  constructor
  · intro b
    rw [Finset.mem_insert, List.mem_cons, h.listed]
  · exact List.nodup_cons.mpr ⟨fun hm => new ((h.listed a).mpr hm), h.once⟩

/-- Something let go and destroyed. -/
theorem Balanced.release (h : Balanced live (a :: held)) : Balanced (live.erase a) held := by
  obtain ⟨fresh, once⟩ := List.nodup_cons.mp h.once
  refine ⟨fun b => ?_, once⟩
  rw [Finset.mem_erase, h.listed, List.mem_cons]
  constructor
  · rintro ⟨hne, rfl | hm⟩
    · exact absurd rfl hne
    · exact hm
  · intro hm
    exact ⟨fun e => fresh (e ▸ hm), .inr hm⟩

/-- Something new that takes the place of what its holder lets go. -/
theorem Balanced.replace {new : α} (h : Balanced live (a :: held)) (fresh : new ∉ live) :
    Balanced ((insert new live).erase a) (new :: held) := by
  have hne : new ≠ a := fun e => fresh (e ▸ (h.listed a).mpr List.mem_cons_self)
  rw [Finset.erase_insert_of_ne hne]
  exact h.release.keep fun hm => fresh (Finset.mem_of_mem_erase hm)

end Holding
