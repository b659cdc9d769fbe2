import PlvmHomeworks.Library.Hash
import PlvmHomeworks.Library.Transparency

/-! What a program learns of its values from the library does not change when the runtime moves them. -/

namespace Lama
open Unfolding

section Collect
variable {m m' : Memory} {objects : List ℕ} {roots : Roots} {begin size : ℕ} {v w : Word}

/-- What the program holds before a collection can be read. -/
theorem readable_mentioned (hwf : WellFormed m.heap objects) (hv : ValidRoots m objects roots)
    (hentry : ∀ p ∈ objects, typeAt m.heap p = some .closure → 0 < lenOf (m.heap.words p))
    (hterm : Terminated m.heap objects) : Readable m.heap (Mentioned m objects roots) := by
  intro v hw
  cases Mentioned.cases hwf hv hw with
  | still hf =>
    cases hu : unboxed v with
    | true => exact .int hu
    | false => exact .foreign hu hf
  | @object p hp hlive =>
    refine .object (hwf.readableObject hp (hentry p hp) (hterm p hp)) fun w hfield => ?_
    exact Or.inr ⟨p, hp, hlive, hfield⟩

/-- `Lhash` of a root word and `Lcompare` of two give after a collection what they gave before, however
    deep the values are. -/
theorem gc_unobserved (hn : Unnoticed m objects roots begin size) :
    ∃ r m', gcAlloc roots (some begin) size m = some (some r, m') ∧
      (∀ a ∈ scannedRoots roots, ∃ x, lhash m.heap (m.ram a) = some x ∧ lhash m'.heap (m'.ram a) = some x) ∧
      ∀ a ∈ scannedRoots roots, ∀ b ∈ scannedRoots roots, ∀ depth,
        lcompare m'.heap depth (m'.ram a) (m'.ram b) = lcompare m.heap depth (m.ram a) (m.ram b) := by
  obtain ⟨r, m', hrun, hc, hfits, hmoved⟩ := hn.collects
  have hsim := moved_simulation hn.wellFormed hn.valid hn.entry hn.terminated hn.foreign hc hfits
  have hread := readable_mentioned hn.wellFormed hn.valid hn.entry hn.terminated
  have hread' := readable_moved hn.wellFormed hn.valid hn.entry hn.terminated hn.foreign hc hfits
  have hroot : ∀ a ∈ scannedRoots roots, m.ram a ∈ Mentioned m objects roots ∧
      m'.ram a = moved m objects roots begin (m.ram a) := fun a ha => ⟨Or.inl ⟨a, ha, rfl⟩, hmoved a ha⟩
  refine ⟨r, m', hrun, fun a ha => ?_, fun a ha b hb depth => ?_⟩
  · have hold := (hroot a ha).1
    have hnew : m'.ram a ∈ {v' | ∃ v ∈ Mentioned m objects roots, v' = moved m objects roots begin v} :=
      ⟨_, hroot a ha⟩
    rw [← lhash_of_sameValue hread hread' hold hnew (hsim.same (hroot a ha))]
    exact ⟨_, lhash_eq hread hold, lhash_eq hread hold⟩
  · rw [lcompare_eq hread (hroot a ha).1 (hroot b hb).1,
      lcompare_eq hread' ⟨_, hroot a ha⟩ ⟨_, hroot b hb⟩]
    refine (compareValues_rel hsim ?_ (hroot a ha) (hroot b hb)).symm
    rintro v _ w _ ⟨hv, rfl⟩ ⟨hw, rfl⟩
    exact ⟨congrArg _, moved_inj hn.wellFormed hn.valid hn.entry hn.terminated hn.foreign hc hfits hv hw⟩

end Collect

theorem gc_unobserved_cyclicMemory : ∃ r m',
    gcAlloc (extraRoot 101) (some 64) 4 (cyclicMemory 101) = some (some r, m') ∧
      (∀ a ∈ scannedRoots (extraRoot 101), ∃ x, lhash cyclicHeap ((cyclicMemory 101).ram a) = some x ∧
        lhash m'.heap (m'.ram a) = some x) ∧
      ∀ a ∈ scannedRoots (extraRoot 101), ∀ b ∈ scannedRoots (extraRoot 101), ∀ depth,
        lcompare m'.heap depth (m'.ram a) (m'.ram b) =
          lcompare cyclicHeap depth ((cyclicMemory 101).ram a) ((cyclicMemory 101).ram b) :=
  gc_unobserved unnoticed_cyclicMemory

end Lama
