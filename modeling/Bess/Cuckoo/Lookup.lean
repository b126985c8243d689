import Bess.Cuckoo.Refine
import Mathlib.Logic.Function.Basic

/-!
# The table as a function

`look` is the value a key has in the table. `Insert` and `Remove` change it at the keys that are
equal to theirs and nowhere else; a failed insertion changes nothing.
-/

namespace Bess.AssocMap

variable {K V : Type} {E : KeyEq K} {l : List (K × V)} {k k' : K}

theorem find_cons (e : K × V) : find E (e :: l) k = if E.eq e.1 k then some e else find E l k := by
  unfold find
  by_cases h : E.eq e.1 k = true
  · rw [List.find?_cons_of_pos (by exact h), if_pos h]
  · rw [List.find?_cons_of_neg (by exact h), if_neg h]

theorem find_erase : find E (erase E l k) k' = if E.eq k k' then none else find E l k' := by
  induction l with
  | nil => simp [find, erase]
  | cons e l ih =>
    unfold erase at ih ⊢
    by_cases hk : E.eq e.1 k = true
    · rw [List.filter_cons_of_neg (by simp [hk]), ih, find_cons]
      by_cases hkk : E.eq k k' = true
      · rw [if_pos hkk, if_pos hkk]
      · have hne : ¬ E.eq e.1 k' = true := fun h =>
          hkk (E.trans _ _ _ (E.symm _ _ hk) h)
        rw [if_neg hkk, if_neg hkk, if_neg hne]
    · rw [List.filter_cons_of_pos (by simpa using hk), find_cons, ih, find_cons]
      by_cases hkk : E.eq k k' = true
      · have hne : ¬ E.eq e.1 k' = true := fun h =>
          hk (E.trans _ _ _ h (E.symm _ _ hkk))
        rw [if_pos hkk, if_pos hkk, if_neg hne]
      · rw [if_neg hkk, if_neg hkk]

theorem find_update (v : V) : find E (update E l k v) k' =
    (find E l k').map fun e => if E.eq e.1 k then (e.1, v) else e := by
  induction l with
  | nil => rfl
  | cons e l ih =>
    have hkey : (if E.eq e.1 k then (e.1, v) else e).1 = e.1 := by
      split <;> rfl
    unfold update at ih ⊢
    rw [List.map_cons, find_cons, hkey, ih, find_cons]
    split <;> rfl

theorem find_of_eq (h : E.eq k k' = true) : find E l k = find E l k' := by
  have hfun : (fun e : K × V => E.eq e.1 k) = fun e => E.eq e.1 k' := by
    funext e
    exact Bool.eq_iff_iff.mpr
      ⟨fun he => E.trans _ _ _ he h, fun he => E.trans _ _ _ he (E.symm _ _ h)⟩
  rw [find, hfun, find]

end Bess.AssocMap

namespace Bess.Cuckoo

open Bess.AssocMap

variable {K V : Type} [Inhabited K] [Inhabited V] {H : Hashing K}

namespace CuckooMap

variable {m m' : CuckooMap K V}

/-- The value of a key. -/
def look (H : Hashing K) (m : CuckooMap K V) (key : K) : Option V := (m.find H key).map Prod.snd

theorem Rep.look_eq (h : Rep H m) (key : K) :
    m.look H key = (AssocMap.find H.toKeyEq m.contents key).map Prod.snd := by
  rw [look, h.find_eq]

theorem Rep.look_of_eq (h : Rep H m) {key k : K} (he : H.eq key k = true) :
    m.look H key = m.look H k := by
  rw [h.look_eq, h.look_eq, find_of_eq he]

theorem Rep.look_congr (h : Rep H m) (h' : Rep H m') (hc : m'.contents.Perm m.contents) (key : K) :
    m'.look H key = m.look H key := by
  rw [h.look_eq, h'.look_eq, h'.distinct.find_perm hc]

theorem Rep.look_insert (h : Rep H m) (key : K) (value : V) :
    ∃ r m', m.insert H key value = some (r, m') ∧ Rep H m' ∧
      ∀ k, m'.look H k = if r.isSome ∧ H.eq key k then some value else m.look H k := by
  obtain ⟨r, m', hr, h', hi⟩ := h.insert_spec key value
  refine ⟨r, m', hr, h', fun k => ?_⟩
  cases hi with
  | old hf he hc =>
    obtain ⟨-, hek⟩ := mem_of_find hf
    rw [h'.look_eq, hc, find_update, Option.map_map]
    by_cases hk : H.eq key k = true
    · have hfk : AssocMap.find H.toKeyEq m.contents k ≠ none := by
        intro hn
        have := find_eq_none.mp hn _ (mem_of_find hf).1
        rw [H.trans _ _ _ hek hk] at this
        cases this
      obtain ⟨e', he'⟩ := Option.ne_none_iff_exists'.mp hfk
      have hkey := (mem_of_find he').2
      have heq : H.eq e'.1 key = true := H.trans _ _ _ hkey (H.symm _ _ hk)
      rw [he', if_pos ⟨rfl, hk⟩]
      simp [heq]
    · rw [if_neg (fun hn => hk hn.2), h.look_eq]
      cases hfk : AssocMap.find H.toKeyEq m.contents k with
      | none => rfl
      | some e' =>
        have hkey := (mem_of_find hfk).2
        have heq : ¬ H.eq e'.1 key = true := fun hn =>
          hk (H.trans _ _ _ (H.symm _ _ hn) hkey)
        simp [heq]
  | new hf ha =>
    cases ha with
    | full hc => rw [h.look_congr h' hc, if_neg (by simp)]
    | added he hc =>
      rw [h'.look_eq, h'.distinct.find_perm hc, find_cons, h.look_eq]
      by_cases hk : H.eq key k = true
      · rw [if_pos hk, if_pos ⟨rfl, hk⟩]
        rfl
      · rw [if_neg hk, if_neg (fun hn => hk hn.2)]

theorem Rep.look_remove (h : Rep H m) (key k : K) :
    (m.remove H key).2.look H k = if H.eq key k then none else m.look H k := by
  obtain ⟨h', -, hc⟩ := h.remove_spec key
  rw [h'.look_eq, h'.distinct.find_perm hc, find_erase, h.look_eq]
  split <;> rfl

/-- An insertion keeps what holds of all keys and of all values. -/
theorem Rep.insert_entries {key : K} {val : V} {r : Option Nat} {P : K → Prop} {Q : V → Prop}
    (h : Rep H m) (hins : m.insert H key val = some (r, m'))
    (hall : ∀ kv ∈ m.contents, P kv.1 ∧ Q kv.2) (hkey : P key) (hval : Q val) :
    Rep H m' ∧ ∀ kv ∈ m'.contents, P kv.1 ∧ Q kv.2 := by
  obtain ⟨r', m'', hins', hrep, hinserted⟩ := h.insert_spec key val
  rw [hins] at hins'
  cases hins'
  refine ⟨hrep, fun kv hkv => ?_⟩
  cases hinserted with
  | old hf he hc =>
    rw [hc, AssocMap.update] at hkv
    obtain ⟨kv₀, hmem, rfl⟩ := List.mem_map.mp hkv
    obtain ⟨hp, hq⟩ := hall kv₀ hmem
    split
    · exact ⟨hp, hval⟩
    · exact ⟨hp, hq⟩
  | new hf ha =>
    cases ha with
    | full hc => exact hall kv (hc.mem_iff.mp hkv)
    | added he hc =>
      rcases List.mem_cons.mp (hc.mem_iff.mp hkv) with rfl | hkv
      · exact ⟨hkey, hval⟩
      · exact hall kv hkv

theorem look_new (H : Hashing K) (b e : Nat) (key : K) (hrep : Rep H (new b e : CuckooMap K V)) :
    (new b e : CuckooMap K V).look H key = none := by
  rw [hrep.look_eq, contents_new]
  rfl

theorem Rep.look_setValue (h : Rep H m) {i : Nat} {key : K} (hi : m.Live i)
    (hk : H.eq (m.entryAt i).1 key = true) (value : V) (k : K) :
    ({ m with entries := m.entries.set i ((m.entryAt i).1, value) } : CuckooMap K V).look H k =
      if H.eq key k then some value else m.look H k := by
  have h' : Rep H { m with entries := m.entries.set i ((m.entryAt i).1, value) } := h.setValue hi
  rw [h'.look_eq, h.contents_setValue hi hk, find_update, Option.map_map, h.look_eq]
  by_cases hkk : H.eq key k = true
  · have hf : AssocMap.find H.toKeyEq m.contents k = some (m.entryAt i) :=
      h.distinct.find_eq_some.mpr ⟨mem_contents.mpr ⟨i, hi, rfl⟩, H.trans _ _ _ hk hkk⟩
    rw [hf, if_pos hkk]
    simp [hk]
  · rw [if_neg hkk]
    cases hf : AssocMap.find H.toKeyEq m.contents k with
    | none => rfl
    | some e =>
      have hne : ¬ H.eq e.1 key = true := fun hn =>
        hkk (H.trans _ _ _ (H.symm _ _ hn) (mem_of_find hf).2)
      simp [hne]

/-! ## Keys that are compared by identity -/

section Lawful

variable [DecidableEq K] (hE : ∀ a b, H.eq a b = true ↔ a = b)

include hE

omit [Inhabited K] [Inhabited V] in
theorem ite_eq_update (f : K → Option V) (key k : K) (v : Option V) :
    (if H.eq key k = true then v else f k) = Function.update f key v k := by
  by_cases hk : key = k
  · subst hk
    simp [(hE key key).mpr rfl]
  · have hne : ¬ H.eq key k = true := fun hn => hk ((hE _ _).mp hn)
    simp [hne, Function.update_of_ne (Ne.symm hk)]

theorem Rep.insert_update (h : Rep H m) (key : K) (value : V) :
    ∃ r m', m.insert H key value = some (r, m') ∧ Rep H m' ∧
      m'.look H = if r.isSome then Function.update (m.look H) key (some value) else m.look H := by
  obtain ⟨r, m', hr, h', hl⟩ := h.look_insert key value
  refine ⟨r, m', hr, h', funext fun k => ?_⟩
  rw [hl]
  cases r with
  | none => simp
  | some i => simpa using ite_eq_update hE (m.look H) key k (some value)

theorem Rep.remove_update (h : Rep H m) (key : K) :
    Rep H (m.remove H key).2 ∧
      (m.remove H key).2.look H = Function.update (m.look H) key none := by
  refine ⟨(h.remove_spec key).1, funext fun k => ?_⟩
  rw [h.look_remove]
  exact ite_eq_update hE (m.look H) key k none

theorem Rep.setValue_update (h : Rep H m) {i : Nat} {key : K} (hi : m.Live i)
    (hk : H.eq (m.entryAt i).1 key = true) (value : V) :
    ({ m with entries := m.entries.set i ((m.entryAt i).1, value) } : CuckooMap K V).look H =
      Function.update (m.look H) key (some value) := by
  funext k
  rw [h.look_setValue hi hk]
  exact ite_eq_update hE (m.look H) key k (some value)

end Lawful

end CuckooMap

end Bess.Cuckoo
