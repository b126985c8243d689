import Mathlib.Logic.Function.Basic

/-!
# Maps whose entries come in pairs

A map `L` each of whose values names a partner key. It is paired if the partner of an entry is
present and names the entry back, so that `k ↦ partner` is an involution on the keys that are
present. Entries of a paired map are added and removed two at a time.
-/

namespace Bess.Pairing

variable {K V : Type} {partner : V → K} {L : K → Option V} {a b k : K} {v va vb : V}

def Paired (partner : V → K) (L : K → Option V) : Prop :=
  ∀ k v, L k = some v → ∃ v', L (partner v) = some v' ∧ partner v' = k

theorem Paired.injective (h : Paired partner L) {k₁ k₂ : K} {v₁ v₂ : V} (h₁ : L k₁ = some v₁)
    (h₂ : L k₂ = some v₂) (he : partner v₁ = partner v₂) : k₁ = k₂ := by
  obtain ⟨v₁', hv₁, hp₁⟩ := h k₁ v₁ h₁
  obtain ⟨v₂', hv₂, hp₂⟩ := h k₂ v₂ h₂
  rw [he, hv₂] at hv₁
  cases hv₁
  exact hp₁.symm.trans hp₂

theorem Paired.partner_ne (h : Paired partner L) (ha : L a = none) (hk : L k = some v) :
    partner v ≠ a := by
  rintro rfl
  obtain ⟨v', hv', -⟩ := h k v hk
  rw [ha] at hv'
  cases hv'

variable [DecidableEq K]

theorem Paired.link (h : Paired partner L) (ha : L a = none) (hb : L b = none) (hne : a ≠ b)
    (hva : partner va = b) (hvb : partner vb = a) :
    Paired partner (Function.update (Function.update L a (some va)) b (some vb)) := by
  intro k v hk
  by_cases hkb : k = b
  · subst hkb
    rw [Function.update_self] at hk
    cases hk
    refine ⟨va, ?_, hva⟩
    rw [hvb, Function.update_of_ne hne, Function.update_self]
  rw [Function.update_of_ne hkb] at hk
  by_cases hka : k = a
  · subst hka
    rw [Function.update_self] at hk
    cases hk
    exact ⟨vb, by rw [hva, Function.update_self], hvb⟩
  rw [Function.update_of_ne hka] at hk
  obtain ⟨v', hv', hp⟩ := h k v hk
  refine ⟨v', ?_, hp⟩
  rw [Function.update_of_ne (h.partner_ne hb hk), Function.update_of_ne (h.partner_ne ha hk), hv']

theorem Paired.unlink (h : Paired partner L) (ha : L a = some va) :
    Paired partner (Function.update (Function.update L (partner va) none) a none) := by
  obtain ⟨vb, hb, hpb⟩ := h a va ha
  intro k v hk
  by_cases hka : k = a
  · subst hka
    rw [Function.update_self] at hk
    cases hk
  rw [Function.update_of_ne hka] at hk
  by_cases hkb : k = partner va
  · subst hkb
    rw [Function.update_self] at hk
    cases hk
  rw [Function.update_of_ne hkb] at hk
  obtain ⟨v', hv', hp⟩ := h k v hk
  have hna : partner v ≠ a := by
    rintro rfl
    rw [ha] at hv'
    cases hv'
    exact hkb hp.symm
  have hnb : partner v ≠ partner va := fun he => hka (h.injective hk ha he)
  exact ⟨v', by rw [Function.update_of_ne hna, Function.update_of_ne hnb, hv'], hp⟩

theorem Paired.revalue (h : Paired partner L) (hk : L k = some v) (hp : partner va = partner v) :
    Paired partner (Function.update L k (some va)) := by
  have hsome : ∀ j w, Function.update L k (some va) j = some w →
      ∃ w', L j = some w' ∧ partner w' = partner w := by
    intro j w hj
    by_cases hjk : j = k
    · subst hjk
      rw [Function.update_self] at hj
      cases hj
      exact ⟨v, hk, hp.symm⟩
    · rw [Function.update_of_ne hjk] at hj
      exact ⟨w, hj, rfl⟩
  have hback : ∀ j w, L j = some w →
      ∃ w', Function.update L k (some va) j = some w' ∧ partner w' = partner w := by
    intro j w hj
    by_cases hjk : j = k
    · subst hjk
      rw [hk] at hj
      cases hj
      exact ⟨va, Function.update_self .., hp⟩
    · exact ⟨w, by rw [Function.update_of_ne hjk, hj], rfl⟩
  intro j w hj
  obtain ⟨w₁, hj₁, hw₁⟩ := hsome j w hj
  obtain ⟨w₂, hj₂, hw₂⟩ := h j w₁ hj₁
  obtain ⟨w₃, hj₃, hw₃⟩ := hback _ _ hj₂
  rw [← hw₁]
  exact ⟨w₃, hj₃, hw₃.trans hw₂⟩

end Bess.Pairing
