import Bess.L2.Refine

/-!
# What the lookups of `L2Forward` touch, and where they agree

The offsets that `l2_find`, `l2_find_offset` and `l2_find_slot` touch are inside of the table iff it
has more than one bucket: for a single bucket the alternate index is a shift by -1.

`l2_find`, which serves the packets, and `l2_find_offset`, which serves the deletions, are two
lookups of the same address. Where buckets have four slots the first one compares 32 bytes of each
bucket, and they agree on an address only if the entry that they should find is the first one of its
bucket or has the gate of one that is.
-/

namespace Bess.L2

open Bess.Slots

/-! ## Offsets -/

/-- The elements that a search looks at, up to the first hit. -/
def upTo {α : Type} (p : α → Bool) : List α → List α
  | [] => []
  | x :: xs => if p x then [x] else x :: upTo p xs

theorem mem_of_mem_upTo {α : Type} {p : α → Bool} {x : α} {l : List α} (h : x ∈ upTo p l) :
    x ∈ l := by
  induction l with
  | nil => exact h
  | cons y ys ih =>
    unfold upTo at h
    split at h
    · rw [List.mem_singleton] at h
      exact h ▸ List.mem_cons_self
    · rcases List.mem_cons.mp h with rfl | h
      · exact List.mem_cons_self
      · exact List.mem_cons_of_mem y (ih h)

section Touched

variable (hash : BitVec 64 → BitVec 32) (avx : Bool) (t : L2Table)

def offsets (index : BitVec 32) : List Nat := (List.range t.bucket).map (ibToOffset t index)

def scanTouched (addr : BitVec 64) (index : BitVec 32) : List Nat :=
  upTo (fun offset => (t.table offset).holds addr) (offsets t index)

def findInTouched (addr : BitVec 64) (index : BitVec 32) : List Nat :=
  if t.bucket = 4 then
    match findIndex avx addr (t.table (ibToOffset t index 0)).line with
    | 0 => [ibToOffset t index 0]
    | tmp + 1 => [ibToOffset t index 0, ibToOffset t index 0 + tmp]
  else scanTouched t addr index

/-- The offsets that `l2_find` touches. -/
def findTouched (addr : BitVec 64) : Option (List Nat) :=
  let idx1 := primary hash t addr
  match findIn avx t addr idx1 with
  | some _ => some (findInTouched avx t addr idx1)
  | none => (alternate hash t addr).map fun idx2 =>
      findInTouched avx t addr idx1 ++ findInTouched avx t addr idx2

/-- The offsets that `l2_find_offset` touches. -/
def findOffsetTouched (addr : BitVec 64) : Option (List Nat) :=
  let idx1 := primary hash t addr
  match scan t addr idx1 with
  | some _ => some (scanTouched t addr idx1)
  | none => (alternate hash t addr).map fun idx2 => scanTouched t addr idx1 ++ scanTouched t addr idx2

def freeSlotTouched (index : BitVec 32) : List Nat :=
  upTo (fun offset => !(t.table offset).occupied) (offsets t index)

def tryMoveTouched (idx1 : BitVec 32) : List Nat → Option (List Nat)
  | [] => some []
  | i :: is =>
    let addr := victim t idx1 i
    match alternate hash t addr with
    | none => none
    | some idx2 =>
      if primary hash t addr = idx2 ∨ idx1 = idx2 then some [ibToOffset t idx1 i]
      else match freeSlot t idx2 with
        | some _ => some (ibToOffset t idx1 i :: freeSlotTouched t idx2)
        | none => (tryMoveTouched idx1 is).map fun l =>
            ibToOffset t idx1 i :: freeSlotTouched t idx2 ++ l

/-- The offsets that `l2_find_slot` touches, those of a move included. -/
def findSlotTouched (addr : BitVec 64) : Option (List Nat) :=
  let idx1 := primary hash t addr
  match freeSlot t idx1 with
  | some _ => some (freeSlotTouched t idx1)
  | none => (tryMoveTouched hash t idx1 (List.range t.bucket)).map fun l =>
      freeSlotTouched t idx1 ++ l

end Touched

variable {hash : BitVec 64 → BitVec 32} {avx : Bool} {t t' : L2Table} {a : BitVec 64}
  {idx idx1 w : BitVec 32}

def Inside (t : L2Table) (l : List Nat) : Prop := ∀ o ∈ l, o < capacity t

theorem Inside.append {l l' : List Nat} (h : Inside t l) (h' : Inside t l') :
    Inside t (l ++ l') := fun o ho => (List.mem_append.mp ho).elim (h o) (h' o)

theorem Inside.cons {o : Nat} {l : List Nat} (ho : o < capacity t) (h : Inside t l) :
    Inside t (o :: l) := by
  rintro o' (_ | ⟨_, ho'⟩)
  · exact ho
  · exact h o' ho'

theorem Inside.nil : Inside t [] := fun _ h => by cases h

theorem inside_upTo (hidx : idx.toNat < t.size) (p : Nat → Bool) :
    Inside t (upTo p (offsets t idx)) := by
  intro o ho
  obtain ⟨i, hi, rfl⟩ := List.mem_map.mp (mem_of_mem_upTo ho)
  exact ibToOffset_lt hidx (List.mem_range.mp hi)

theorem findIndex_le (avx : Bool) (a : BitVec 64) (words : List (BitVec 64)) :
    findIndex avx a words ≤ words.length := by
  unfold findIndex
  split
  · rename_i i hi
    exact (List.findIdx?_eq_some_iff_getElem.mp hi).1
  · exact Nat.zero_le _

theorem inside_findIn (hidx : idx.toNat < t.size) : Inside t (findInTouched avx t a idx) := by
  unfold findInTouched
  split
  · rename_i h4
    have hslot : ∀ i < 4, ibToOffset t idx 0 + i < capacity t := fun i hi =>
      ibToOffset_lt hidx (show i < t.bucket by omega)
    have hle := findIndex_le avx a (t.table (ibToOffset t idx 0)).line
    split
    · exact .cons (hslot 0 (by decide)) .nil
    · rename_i tmp htmp
      rw [htmp] at hle
      exact .cons (hslot 0 (by decide)) (.cons (hslot tmp hle) .nil)
  · exact inside_upTo hidx _

theorem inside_tryMove (hidx : idx1.toNat < t.size) (hsp : t.sizePower ≠ 0) :
    ∀ is : List Nat, (∀ i ∈ is, i < t.bucket) →
      ∃ l, tryMoveTouched hash t idx1 is = some l ∧ Inside t l
  | [], _ => ⟨[], rfl, .nil⟩
  | i :: is, his => by
    have hi : ibToOffset t idx1 i < capacity t := ibToOffset_lt hidx (his i List.mem_cons_self)
    obtain ⟨l, hl, hin⟩ := inside_tryMove hidx hsp is fun j hj => his j (List.mem_cons_of_mem i hj)
    unfold tryMoveTouched
    simp only
    split
    · rename_i hnone
      exact absurd (alternate_eq_none_iff.mp hnone) hsp
    · rename_i idx2 halt
      have hfree : Inside t (freeSlotTouched t idx2) := inside_upTo (alternate_lt halt) _
      split
      · exact ⟨_, rfl, .cons hi .nil⟩
      · split
        · exact ⟨_, rfl, .cons hi hfree⟩
        · rw [hl]
          exact ⟨_, rfl, .append (.cons hi hfree) hin⟩

/-! ## Tables of one size -/

/-- Operations do not change how many slots there are. -/
structure SameShape (t t' : L2Table) : Prop where
  size : t'.size = t.size
  sizePower : t'.sizePower = t.sizePower
  bucket : t'.bucket = t.bucket

theorem SameShape.refl (t : L2Table) : SameShape t t := ⟨rfl, rfl, rfl⟩

theorem SameShape.trans {t'' : L2Table} (h : SameShape t t') (h' : SameShape t' t'') :
    SameShape t t'' :=
  ⟨h'.size.trans h.size, h'.sizePower.trans h.sizePower, h'.bucket.trans h.bucket⟩

theorem findSlot_shape {i : Nat} (h : findSlot hash t a = some (some (t', idx, i))) :
    SameShape t t' := by
  unfold findSlot at h
  simp only at h
  split at h
  · cases h
    exact .refl t
  · cases hm : tryMove hash t (primary hash t a) (List.range t.bucket) with
    | none =>
      rw [hm] at h
      cases h
    | some r =>
      cases r with
      | none =>
        rw [hm] at h
        cases h
      | some m =>
        rw [hm] at h
        cases h
        exact ⟨rfl, rfl, rfl⟩

theorem step_shape {op : Op} {ret : Int} (h : step hash avx t op = some (ret, t')) :
    SameShape t t' := by
  cases op with
  | add a g =>
    rw [step, addEntry] at h
    split at h
    · cases h
    · cases h
      exact .refl t
    · split at h
      · cases h
      · cases h
        exact .refl t
      · rename_i hslot
        cases h
        have hshape := findSlot_shape hslot
        exact ⟨hshape.size, hshape.sizePower, hshape.bucket⟩
  | del a =>
    rw [step, delEntry] at h
    split at h
    · cases h
    · cases h
      exact .refl t
    · cases h
      exact ⟨rfl, rfl, rfl⟩
  | flush =>
    cases h
    exact ⟨rfl, rfl, rfl⟩

theorem run_shape {ops : List Op} (h : run hash avx t ops = some t') : SameShape t t' := by
  induction ops generalizing t with
  | nil =>
    cases h
    exact .refl _
  | cons op ops ih =>
    rw [run, Option.bind_eq_some_iff] at h
    obtain ⟨r, hs, hr⟩ := h
    exact (step_shape hs).trans (ih hr)

theorem l2Init_size {size bucket : Int} (h : l2Init size bucket = .ok t) :
    (t.size : Int) = size ∧ (t.bucket : Int) = bucket := by
  unfold l2Init at h
  split at h
  · cases h
  · rename_i hs
    split at h
    · cases h
    · rename_i hb
      cases h
      constructor
      · exact Int.toNat_of_nonneg (by omega)
      · exact Int.toNat_of_nonneg (by omega)

theorem sizePower_eq_zero_iff : t.sizePower = 0 ↔ t.size = 1 := by
  rw [t.size_eq]
  constructor
  · intro h
    rw [h]
    rfl
  · intro h
    exact (Nat.pow_eq_one.mp h).resolve_left (by decide)

/-- For every table that `l2_init` accepts, whatever has been done to it, and every address: both
indices are below the size and the lookups touch the slots of the table only, iff the table has more
than one bucket. -/
theorem touched_inside_iff {size bucket : Int} {t₀ t : L2Table}
    (hinit : l2Init size bucket = .ok t₀) (hash : BitVec 64 → BitVec 32) (avx : Bool)
    (ops : List Op) (hrun : run hash avx t₀ ops = some t) (a : BitVec 64) :
    ((primary hash t a).toNat < size.toNat ∧
      (∃ idx2, alternate hash t a = some idx2 ∧ idx2.toNat < size.toNat) ∧
      ∀ touched ∈ [findTouched hash avx t a, findOffsetTouched hash t a, findSlotTouched hash t a],
        ∃ l, touched = some l ∧ ∀ o ∈ l, o < size.toNat * bucket.toNat) ↔ size ≠ 1 := by
  obtain ⟨hsize, hbucket⟩ := l2Init_size hinit
  have hshape := run_shape hrun
  have hsz : size.toNat = t.size := by rw [← hsize, hshape.size, Int.toNat_natCast]
  have hbk : bucket.toNat = t.bucket := by rw [← hbucket, hshape.bucket, Int.toNat_natCast]
  have hone : size ≠ 1 ↔ t.sizePower ≠ 0 := by
    rw [Ne, Ne, sizePower_eq_zero_iff, hshape.size, ← hsize]
    omega
  rw [hsz, hbk, hone]
  constructor
  · rintro ⟨-, ⟨idx2, halt, -⟩, -⟩ hsp
    rw [alternate_eq_none_iff.mpr hsp] at halt
    cases halt
  · intro hsp
    obtain ⟨idx2, halt⟩ : ∃ idx2, alternate hash t a = some idx2 :=
      Option.ne_none_iff_exists'.mp fun h => hsp (alternate_eq_none_iff.mp h)
    have h1 : (primary hash t a).toNat < t.size := primary_lt
    have h2 : idx2.toNat < t.size := alternate_lt halt
    refine ⟨h1, ⟨idx2, halt, h2⟩, ?_⟩
    simp only [List.forall_mem_cons, List.not_mem_nil, false_imp_iff, implies_true, and_true]
    refine ⟨?_, ?_, ?_⟩
    · unfold findTouched
      simp only [halt, Option.map_some]
      split
      · exact ⟨_, rfl, inside_findIn h1⟩
      · exact ⟨_, rfl, (inside_findIn h1).append (inside_findIn h2)⟩
    · unfold findOffsetTouched
      simp only [halt, Option.map_some]
      split
      · exact ⟨_, rfl, inside_upTo h1 _⟩
      · exact ⟨_, rfl, (inside_upTo h1 _).append (inside_upTo h2 _)⟩
    · unfold findSlotTouched
      simp only
      split
      · exact ⟨_, rfl, inside_upTo h1 _⟩
      · obtain ⟨l, hl, hin⟩ := inside_tryMove h1 hsp (List.range t.bucket) fun i =>
          List.mem_range.mp
        rw [hl]
        exact ⟨_, rfl, (inside_upTo h1 _).append hin⟩

theorem defaultTable_touched : l2Init 1024 4 = .ok defaultTable ∧
    ((primary l2Hash defaultTable firstAddr).toNat < (1024 : Int).toNat ∧
      (∃ idx2, alternate l2Hash defaultTable firstAddr = some idx2 ∧
        idx2.toNat < (1024 : Int).toNat) ∧
      ∀ touched ∈ [findTouched l2Hash true defaultTable firstAddr,
          findOffsetTouched l2Hash defaultTable firstAddr,
          findSlotTouched l2Hash defaultTable firstAddr],
        ∃ l, touched = some l ∧ ∀ o ∈ l, o < (1024 : Int).toNat * (4 : Int).toNat) :=
  ⟨by rfl, (touched_inside_iff (show l2Init 1024 4 = .ok defaultTable by rfl) l2Hash true [] rfl
    firstAddr).mpr (by decide)⟩

/-- The smallest table that `l2_init` accepts. -/
def singleBucket : L2Table where
  table := fun _ => L2Entry.zero
  size := 1
  sizePower := 0
  bucket := 1
  count := 0
  size_eq := by decide
  size_le := by decide
  bucket_pos := Nat.one_pos

/-- The first lookup in it shifts by -1. -/
theorem singleBucket_undefined : l2Init 1 1 = .ok singleBucket ∧
    alternate l2Hash singleBucket firstAddr = none ∧
    findTouched l2Hash true singleBucket firstAddr = none :=
  ⟨by rfl, by rfl, by rfl⟩

/-! ## Buckets of four slots -/

theorem findIndex_line_of_holds {e : L2Entry} (b : BitVec 48) (h : e.holds (b.setWidth 64) = true) :
    findIndex avx (b.setWidth 64) e.line = 1 := by
  obtain ⟨hocc, haddr⟩ := (holds_iff b).mp h
  have hhit : wordHit avx (b.setWidth 64) e.entry = true := wordHit_entry b |>.mpr ⟨haddr, .inl hocc⟩
  unfold findIndex L2Entry.line
  rw [List.findIdx?_cons, hhit]
  rfl

/-- With AVX the address zero is equal to an entry of that address, occupied or not, and to the
padding behind every other one. -/
theorem findIndex_line_zero (e : L2Entry) :
    findIndex true ((0 : BitVec 48).setWidth 64) e.line = if e.addr = 0 then 1 else 2 := by
  have hpad : wordHit true ((0 : BitVec 48).setWidth 64) 0 = true := (wordHit_zero 0).mpr ⟨rfl, rfl⟩
  have hentry : wordHit true ((0 : BitVec 48).setWidth 64) e.entry = decide (e.addr = 0) := by
    rw [Bool.eq_iff_iff, wordHit_entry, decide_eq_true_iff]
    exact ⟨fun h => h.1, fun h => ⟨h, .inr ⟨rfl, rfl⟩⟩⟩
  unfold findIndex L2Entry.line
  rw [List.findIdx?_cons, hentry, List.findIdx?_cons, hpad]
  by_cases h : e.addr = 0
  · rw [if_pos h, decide_eq_true h]
    rfl
  · rw [if_neg h, decide_eq_false h]
    rfl

/-- The gate that is stored at an offset. -/
def gateOf (t : L2Table) (o : Nat) : BitVec 16 := (t.table o).gate.setWidth 16

theorem findIn_first (h4 : t.bucket = 4) (b : BitVec 48)
    (h : (t.table (ibToOffset t idx 0)).holds (b.setWidth 64) = true) :
    findIn avx t (b.setWidth 64) idx = some (gateOf t (ibToOffset t idx 0)) := by
  rw [findIn, if_pos h4, findIndex_line_of_holds b h]
  rfl

theorem findIn_miss (h4 : t.bucket = 4) (b : BitVec 48)
    (h : (t.table (ibToOffset t idx 0)).holds (b.setWidth 64) ≠ true)
    (hz : ¬ (avx = true ∧ b = 0)) : findIn avx t (b.setWidth 64) idx = none := by
  have h0 : findIndex avx (b.setWidth 64) (t.table (ibToOffset t idx 0)).line = 0 := by
    by_contra hne
    exact ((findIndex_line avx _ b).mp hne).elim h hz
  rw [findIn, if_pos h4, h0]

/-- The slot that the address zero hits with AVX. -/
def zeroSlot (t : L2Table) (idx : BitVec 32) : Nat :=
  if (t.table (ibToOffset t idx 0)).addr = 0 then ibToOffset t idx 0 else ibToOffset t idx 1

theorem findIn_zero (h4 : t.bucket = 4) (idx : BitVec 32) :
    findIn true t ((0 : BitVec 48).setWidth 64) idx = some (gateOf t (zeroSlot t idx)) := by
  rw [findIn, if_pos h4, findIndex_line_zero, zeroSlot]
  by_cases h : (t.table (ibToOffset t idx 0)).addr = 0
  · rw [if_pos h, if_pos h]
    rfl
  · rw [if_neg h, if_neg h]
    rfl

theorem scan_first (h : (t.table (ibToOffset t idx 0)).holds a = true) :
    scan t a idx = some (ibToOffset t idx 0) := by
  obtain ⟨n, hn⟩ := Nat.exists_eq_succ_of_ne_zero (Nat.pos_iff_ne_zero.mp t.bucket_pos)
  unfold scan
  rw [hn, List.range_succ_eq_map, List.map_cons, List.find?_cons, h]

/-! ## Agreement -/

/-- Both lookups return; one succeeds iff the other does and returns the gate at that offset. -/
def Agree (hash : BitVec 64 → BitVec 32) (avx : Bool) (t : L2Table) (a : BitVec 64) : Prop :=
  ∃ r, findOffset hash t a = some r ∧ find hash avx t a = some (r.map (gateOf t))

/-- Where the entry of an address may be for both lookups to agree on it. -/
inductive Exposed (hash : BitVec 64 → BitVec 32) (avx : Bool) (t : L2Table) (a : BitVec 64) : Prop
  /-- Buckets of one or two slots, and an alternate index if it is needed. -/
  | scanned (hbucket : t.bucket ≠ 4)
      (hdefined : t.size ≠ 1 ∨ scan t a (primary hash t a) ≠ none)
  /-- The first slot of the first bucket. -/
  | first (hbucket : t.bucket = 4)
      (hfirst : (t.table (ibToOffset t (primary hash t a) 0)).holds a = true)
  /-- Not in the first bucket, and in the first slot of the other one if it is there at all. -/
  | other (idx2 : BitVec 32) (hbucket : t.bucket = 4) (hzero : ¬ (avx = true ∧ a = 0))
      (hnone : scan t a (primary hash t a) = none) (halt : alternate hash t a = some idx2)
      (hother : scan t a idx2 ≠ none → (t.table (ibToOffset t idx2 0)).holds a = true)
  /-- A second entry with the same gate, in the first slot of the other bucket. -/
  | copy (o : Nat) (idx2 : BitVec 32) (hbucket : t.bucket = 4) (hzero : ¬ (avx = true ∧ a = 0))
      (hscan : scan t a (primary hash t a) = some o) (halt : alternate hash t a = some idx2)
      (hcopy : (t.table (ibToOffset t idx2 0)).holds a = true)
      (hgate : gateOf t (ibToOffset t idx2 0) = gateOf t o)
  /-- The address zero with AVX, with the gate of the slot that is hit in any case. -/
  | zero (o : Nat) (hbucket : t.bucket = 4) (havx : avx = true) (hzero : a = 0)
      (hoffset : findOffset hash t a = some (some o))
      (hgate : gateOf t (zeroSlot t (primary hash t a)) = gateOf t o)

theorem find_eq_of_ne_four (h4 : t.bucket ≠ 4) :
    find hash avx t a = (findOffset hash t a).map (Option.map (gateOf t)) := by
  have hin : ∀ idx, findIn avx t a idx = (scan t a idx).map (gateOf t) := fun idx => by
    rw [findIn, if_neg h4]
    rfl
  unfold find findOffset
  rw [hin]
  cases scan t a (primary hash t a) with
  | some o => rfl
  | none =>
    cases alternate hash t a with
    | none => rfl
    | some idx2 => simp [hin]

theorem findOffset_of_scan {o : Nat} (h : scan t a (primary hash t a) = some o) :
    findOffset hash t a = some (some o) := by
  rw [findOffset, h]

theorem findOffset_of_scan_none {idx2 : BitVec 32} (h : scan t a (primary hash t a) = none)
    (halt : alternate hash t a = some idx2) : findOffset hash t a = some (scan t a idx2) := by
  rw [findOffset, h, halt]
  rfl

theorem findOffset_eq_none_iff : findOffset hash t a = none ↔
    scan t a (primary hash t a) = none ∧ t.size = 1 := by
  have halt : alternate hash t a = none ↔ t.sizePower = 0 := alternate_eq_none_iff
  rw [← sizePower_eq_zero_iff, ← halt]
  unfold findOffset
  cases scan t a (primary hash t a) with
  | some o => simp
  | none => simp

theorem find_of_findIn {gate : BitVec 16} (h : findIn avx t a (primary hash t a) = some gate) :
    find hash avx t a = some (some gate) := by
  rw [find, h]

theorem find_of_findIn_none {idx2 : BitVec 32} (h : findIn avx t a (primary hash t a) = none)
    (halt : alternate hash t a = some idx2) : find hash avx t a = some (findIn avx t a idx2) := by
  rw [find, h, halt]
  rfl

theorem exposed_of_agree (b : BitVec 48) (h : Agree hash avx t (b.setWidth 64)) :
    Exposed hash avx t (b.setWidth 64) := by
  obtain ⟨r, hoff, hfind⟩ := h
  by_cases h4 : t.bucket = 4
  · by_cases hz : avx = true ∧ b = 0
    · obtain ⟨rfl, rfl⟩ := hz
      rw [find_of_findIn (findIn_zero h4 _), Option.some.injEq] at hfind
      cases r with
      | none => cases hfind
      | some o => exact .zero o h4 rfl (by decide) hoff (Option.some.inj hfind)
    · by_cases hfirst : (t.table (ibToOffset t (primary hash t (b.setWidth 64)) 0)).holds
          (b.setWidth 64) = true
      · exact .first h4 hfirst
      · have hmiss := findIn_miss h4 b hfirst hz
        have hz' : ¬ (avx = true ∧ b.setWidth 64 = 0) := fun h => hz ⟨h.1, by
          have := congrArg (BitVec.setWidth 48) h.2
          simpa using this⟩
        cases halt : alternate hash t (b.setWidth 64) with
        | none =>
          rw [find, hmiss, halt] at hfind
          cases hfind
        | some idx2 =>
          rw [find_of_findIn_none hmiss halt, Option.some.injEq] at hfind
          -- what the second comparison says about the first slot of the other bucket
          have hholds : findIn avx t (b.setWidth 64) idx2 ≠ none →
              (t.table (ibToOffset t idx2 0)).holds (b.setWidth 64) = true := fun hne => by
            by_contra hno
            exact hne (findIn_miss h4 b hno hz)
          cases hscan : scan t (b.setWidth 64) (primary hash t (b.setWidth 64)) with
          | some o =>
            rw [findOffset_of_scan hscan, Option.some.injEq] at hoff
            subst hoff
            have hcopy := hholds (by rw [hfind]; simp)
            rw [findIn_first h4 b hcopy] at hfind
            exact .copy o idx2 h4 hz' hscan halt hcopy (Option.some.inj hfind)
          | none =>
            rw [findOffset_of_scan_none hscan halt, Option.some.injEq] at hoff
            subst hoff
            refine .other idx2 h4 hz' hscan halt fun hne => hholds ?_
            rw [hfind, Ne, Option.map_eq_none_iff]
            exact hne
  · refine .scanned h4 ?_
    by_contra hno
    rw [not_or, not_not, not_not] at hno
    rw [findOffset_eq_none_iff.mpr ⟨hno.2, hno.1⟩] at hoff
    cases hoff

theorem agree_of_exposed (b : BitVec 48) (h : Exposed hash avx t (b.setWidth 64)) :
    Agree hash avx t (b.setWidth 64) := by
  have hzero : ¬ (avx = true ∧ b.setWidth 64 = 0) → ¬ (avx = true ∧ b = 0) := by
    rintro hz ⟨h1, rfl⟩
    exact hz ⟨h1, by decide⟩
  cases h with
  | scanned h4 hdef =>
    cases hoff : findOffset hash t (b.setWidth 64) with
    | none =>
      obtain ⟨hscan, hone⟩ := findOffset_eq_none_iff.mp hoff
      exact (hdef.elim (fun h => h hone) fun h => h hscan).elim
    | some r => exact ⟨r, hoff, by rw [find_eq_of_ne_four h4, hoff]; rfl⟩
  | first h4 hfirst =>
    exact ⟨_, findOffset_of_scan (scan_first hfirst), find_of_findIn (findIn_first h4 b hfirst)⟩
  | other idx2 h4 hz hscan halt hother =>
    have hmiss : findIn avx t (b.setWidth 64) (primary hash t (b.setWidth 64)) = none :=
      findIn_miss h4 b (fun h => by rw [scan_first h] at hscan; cases hscan) (hzero hz)
    refine ⟨_, findOffset_of_scan_none hscan halt, ?_⟩
    rw [find_of_findIn_none hmiss halt, Option.some.injEq]
    by_cases hfirst : (t.table (ibToOffset t idx2 0)).holds (b.setWidth 64) = true
    · rw [findIn_first h4 b hfirst, scan_first hfirst]
      rfl
    · rw [findIn_miss h4 b hfirst (hzero hz), not_not.mp (mt hother hfirst)]
      rfl
  | copy o idx2 h4 hz hscan halt hcopy hgate =>
    refine ⟨_, findOffset_of_scan hscan, ?_⟩
    by_cases hfirst : (t.table (ibToOffset t (primary hash t (b.setWidth 64)) 0)).holds
        (b.setWidth 64) = true
    · rw [scan_first hfirst, Option.some.injEq] at hscan
      subst hscan
      exact find_of_findIn (findIn_first h4 b hfirst)
    · rw [find_of_findIn_none (findIn_miss h4 b hfirst (hzero hz)) halt, findIn_first h4 b hcopy,
        hgate]
      rfl
  | zero o h4 havx hz hoff hgate =>
    refine ⟨_, hoff, ?_⟩
    have hb : b = 0 := by
      have := congrArg (BitVec.setWidth 48) hz
      simpa using this
    subst hb havx
    rw [find_of_findIn (findIn_zero h4 _), hgate]
    rfl

/-- For every table and every address of 48 bits the two lookups agree iff its entry is exposed. -/
theorem lookups_agree_iff (hash : BitVec 64 → BitVec 32) (avx : Bool) (t : L2Table)
    (b : BitVec 48) :
    Agree hash avx t (b.setWidth 64) ↔ Exposed hash avx t (b.setWidth 64) :=
  ⟨exposed_of_agree b, agree_of_exposed b⟩

/-- After two additions the second address has an offset, and packets to it do not find it. -/
theorem bothAdded_disagree : l2Init 1024 4 = .ok defaultTable ∧
    (run l2Hash true defaultTable bothAdded).map (fun t =>
        (findOffset l2Hash t secondAddr, find l2Hash true t secondAddr)) =
      some (some (some 1997), some none) :=
  ⟨by rfl, by decide +kernel⟩

end Bess.L2
