import Mathlib.Data.Set.Card
import PosixRegex.ByteSet

/-!
# Sets of bytes as runs

The runs of a set of bytes are its canonical form. Runs in ascending order, with a byte missing
between each of them and the next one, are determined by the bytes that they cover
(`ByteSet.IsCanonical.eq_of_covers`), and the runs of a set are of this form and cover the bytes of
the set. So a set and its runs are built from each other.

This holds of all sets, in whatever way they come about. What each operation does to the bytes of a
set is said by `ByteSet.Operation.act`.

- `ByteSet.isCanonical_foldl_pushRun`: ascending bytes are gathered into canonical runs.
- `ByteSet.size_eq_length_toList`: the bits that are set in the words are as many as the bytes.
- `ByteSet.ofRuns_runs`, `ByteSet.runs_ofRuns`: a set from its runs, and runs from their set.
- `ByteSet.sum_width_runs`: the number of bytes.
- `ByteSet.Operation.bytes_apply`: the operations on sets.
- `ByteSet.runs_canonical`: the runs of any set that operations build.
-/

namespace PosixRegex

theorem Byte.pairwise_all : Byte.all.Pairwise (·.toNat < ·.toNat) := by
  rw [Byte.all, List.pairwise_map]
  refine List.pairwise_lt_range.imp_of_mem fun hi hj hlt => ?_
  rwa [UInt8.toNat_ofNat', UInt8.toNat_ofNat', Nat.mod_eq_of_lt (List.mem_range.1 hi),
    Nat.mod_eq_of_lt (List.mem_range.1 hj)]

namespace ByteSet

variable {s : ByteSet} {b : UInt8} {r r' : UInt8 × UInt8} {rs rs' : List (UInt8 × UInt8)}

/-- Runs of consecutive bytes in ascending order, with at least one byte missing between each of
them and the next one. -/
structure IsCanonical (rs : List (UInt8 × UInt8)) : Prop where
  /-- A run does not end before it begins. -/
  le : ∀ r ∈ rs, r.1 ≤ r.2
  /-- The next run begins further on than right behind a run. -/
  apart : rs.IsChain fun r r' => r.2.toNat + 1 < r'.1.toNat

/-- One of several runs holds a byte. -/
def Covers (rs : List (UInt8 × UInt8)) (b : UInt8) : Prop := ∃ r ∈ rs, r.1 ≤ b ∧ b ≤ r.2

/-- The number of bytes in a run. -/
def width (r : UInt8 × UInt8) : Nat := r.2.toNat - r.1.toNat + 1

/-- The set of the bytes in runs. -/
def ofRuns (rs : List (UInt8 × UInt8)) : ByteSet := rs.foldl (fun s r => s.insertRange r.1 r.2) ∅

theorem not_covers_nil (b : UInt8) : ¬Covers [] b := by
  rintro ⟨r, hr, -⟩
  cases hr

theorem covers_cons : Covers (r :: rs) b ↔
    (r.1.toNat ≤ b.toNat ∧ b.toNat ≤ r.2.toNat) ∨ Covers rs b := by
  rw [Covers, List.exists_mem_cons_iff, UInt8.le_iff_toNat_le, UInt8.le_iff_toNat_le, Covers]

/-! ### Canonical runs -/

theorem covers_append : Covers (rs ++ rs') b ↔ Covers rs b ∨ Covers rs' b := by
  simp only [Covers, List.mem_append, or_and_right, exists_or]

theorem covers_singleton {lo hi : UInt8} :
    Covers [(lo, hi)] b ↔ lo.toNat ≤ b.toNat ∧ b.toNat ≤ hi.toNat := by
  rw [covers_cons, or_iff_left (not_covers_nil b)]

/-- A run of one byte covers that byte. -/
theorem covers_singleton_self {b' : UInt8} : Covers [(b, b)] b' ↔ b' = b := by
  rw [covers_singleton, ← UInt8.toNat_inj]
  omega

namespace IsCanonical

theorem nil : IsCanonical [] := ⟨nofun, .nil⟩

theorem head_le (h : IsCanonical (r :: rs)) : r.1.toNat ≤ r.2.toNat :=
  UInt8.le_iff_toNat_le.1 (h.le r List.mem_cons_self)

theorem tail (h : IsCanonical (r :: rs)) : IsCanonical rs :=
  ⟨fun r' hr' => h.le r' (List.mem_cons_of_mem r hr'), h.apart.tail⟩

/-- Not only the next run but all later ones lie behind a gap. -/
theorem lt_of_mem (h : IsCanonical (r :: rs)) (hr' : r' ∈ rs) :
    r.2.toNat + 1 < r'.1.toNat := by
  induction rs generalizing r with
  | nil => cases hr'
  | cons next rs ih =>
    have hnext := (List.isChain_cons_cons.1 h.apart).1
    rcases List.mem_cons.1 hr' with rfl | hr'
    · exact hnext
    · have hlater := ih h.tail hr'
      have hle := h.tail.head_le
      omega

/-- What later runs hold lies behind a gap. -/
theorem lt_of_covers (h : IsCanonical (r :: rs)) (hb : Covers rs b) :
    r.2.toNat + 1 < b.toNat := by
  obtain ⟨r', hr', hle, -⟩ := hb
  exact Nat.lt_of_lt_of_le (h.lt_of_mem hr') (UInt8.le_iff_toNat_le.1 hle)

/-- The bytes of the later runs are those behind the first one. -/
theorem covers_tail_iff (h : IsCanonical (r :: rs)) :
    Covers rs b ↔ Covers (r :: rs) b ∧ r.2.toNat < b.toNat := by
  rw [covers_cons]
  constructor
  · intro hb
    have hlt := h.lt_of_covers hb
    exact ⟨.inr hb, by omega⟩
  · rintro ⟨⟨-, hle⟩ | hb, hlt⟩
    · omega
    · exact hb

/-- The first run begins with the least byte. -/
theorem start_le (h : IsCanonical (r :: rs)) (hb : Covers (r :: rs) b) :
    r.1.toNat ≤ b.toNat := by
  rcases covers_cons.1 hb with ⟨hle, -⟩ | hb
  · exact hle
  · have hlt := h.lt_of_covers hb
    have hle := h.head_le
    omega

theorem covers_start (h : IsCanonical (r :: rs)) : Covers (r :: rs) r.1 :=
  covers_cons.2 (.inl ⟨Nat.le_refl _, h.head_le⟩)

/-- The first run reaches as far as the bytes follow each other. -/
theorem stop_le (h : IsCanonical (r :: rs)) (hstart : r.1 = r'.1)
    (hcovers : ∀ b, Covers (r' :: rs') b → Covers (r :: rs) b) :
    r'.2.toNat ≤ r.2.toNat := by
  by_contra hlt
  -- The byte behind the first run is held by the other one, but there is a gap.
  have hmax := r'.2.toNat_lt
  have hnext : (UInt8.ofNat (r.2.toNat + 1)).toNat = r.2.toNat + 1 := by
    rw [UInt8.toNat_ofNat', Nat.mod_eq_of_lt]
    omega
  have hle := h.head_le
  rw [hstart] at hle
  have hcovered := hcovers (UInt8.ofNat (r.2.toNat + 1)) (covers_cons.2 (.inl (by omega)))
  rcases covers_cons.1 hcovered with ⟨-, hle⟩ | hb
  · omega
  · have hgap := h.lt_of_covers hb
    omega

/-- Canonical runs are determined by the bytes that they cover. -/
theorem eq_of_covers (h : IsCanonical rs) (h' : IsCanonical rs')
    (hcovers : ∀ b, Covers rs b ↔ Covers rs' b) : rs = rs' := by
  induction rs generalizing rs' with
  | nil =>
    cases rs' with
    | nil => rfl
    | cons r' rs' => exact absurd ((hcovers r'.1).2 h'.covers_start) (not_covers_nil _)
  | cons r rs ih =>
    cases rs' with
    | nil => exact absurd ((hcovers r.1).1 h.covers_start) (not_covers_nil _)
    | cons r' rs' =>
      have hstart : r.1 = r'.1 := UInt8.toNat_inj.1 (Nat.le_antisymm
        (h.start_le ((hcovers r'.1).2 h'.covers_start))
        (h'.start_le ((hcovers r.1).1 h.covers_start)))
      have hstop : r.2 = r'.2 := UInt8.toNat_inj.1 (Nat.le_antisymm
        (h'.stop_le hstart.symm fun b => (hcovers b).1)
        (h.stop_le hstart fun b => (hcovers b).2))
      obtain rfl : r = r' := Prod.ext hstart hstop
      have htails : rs = rs' := ih h.tail h'.tail fun b => by
        rw [h.covers_tail_iff, h'.covers_tail_iff, hcovers]
      rw [htails]

end IsCanonical

/-! ### Gathering bytes into runs -/

theorem pushRun_concat (rs : List (UInt8 × UInt8)) (lo hi b : UInt8) :
    pushRun (rs ++ [(lo, hi)]) b =
      if Byte.succ? hi = some b then rs ++ [(lo, b)] else rs ++ [(lo, hi)] ++ [(b, b)] := by
  rw [pushRun, List.getLast?_concat, List.dropLast_concat]

/-- The last of canonical runs does not end before it begins. -/
theorem IsCanonical.le_of_concat {lo hi : UInt8} (h : IsCanonical (rs ++ [(lo, hi)])) :
    lo.toNat ≤ hi.toNat :=
  UInt8.le_iff_toNat_le.1 (h.le (lo, hi) (List.mem_append_right rs (List.mem_singleton_self _)))

/-- A byte behind runs is covered in addition. -/
theorem covers_pushRun (h : IsCanonical rs) (b b' : UInt8) :
    Covers (pushRun rs b) b' ↔ Covers rs b' ∨ b' = b := by
  rcases List.eq_nil_or_concat' rs with rfl | ⟨rs, ⟨lo, hi⟩, rfl⟩
  · show Covers [(b, b)] b' ↔ _
    rw [covers_singleton_self, or_iff_right (not_covers_nil b')]
  · have hle := h.le_of_concat
    rw [pushRun_concat]
    split
    · -- The last run goes on to the byte.
      rename_i hnext
      rw [Byte.succ?_eq_some_iff] at hnext
      rw [covers_append, covers_append, covers_singleton, covers_singleton, or_assoc,
        ← UInt8.toNat_inj]
      refine or_congr_right ?_
      omega
    · rw [covers_append, covers_singleton_self]

/-- A byte behind runs is one more byte in them. -/
theorem sum_width_pushRun (h : IsCanonical rs) (b : UInt8) :
    ((pushRun rs b).map width).sum = (rs.map width).sum + 1 := by
  rcases List.eq_nil_or_concat' rs with rfl | ⟨rs, ⟨lo, hi⟩, rfl⟩
  · show ([(b, b)].map width).sum = _
    simp [width]
  · have hle := h.le_of_concat
    rw [pushRun_concat]
    split
    · rename_i hnext
      rw [Byte.succ?_eq_some_iff] at hnext
      simp only [List.map_append, List.map_cons, List.map_nil, List.sum_append, List.sum_cons,
        List.sum_nil, width]
      omega
    · simp [width, Nat.add_assoc]

/-- A larger byte behind runs keeps them canonical. -/
theorem IsCanonical.push_byte (h : IsCanonical rs) (hb : ∀ b', Covers rs b' → b'.toNat < b.toNat) :
    IsCanonical (pushRun rs b) := by
  rcases List.eq_nil_or_concat' rs with rfl | ⟨rs, ⟨lo, hi⟩, rfl⟩
  · exact ⟨List.forall_mem_singleton.2 (UInt8.le_refl b), .singleton _⟩
  · have hle := h.le_of_concat
    have hlast : hi.toNat < b.toNat :=
      hb hi (covers_append.2 (.inr (covers_singleton.2 ⟨hle, Nat.le_refl _⟩)))
    rw [pushRun_concat]
    split
    · -- The byte extends the last run, which begins where it did.
      obtain ⟨hbefore, -, hgap⟩ := List.isChain_append.1 h.apart
      have hle' : lo ≤ b := UInt8.le_iff_toNat_le.2 (by omega)
      refine ⟨fun r hr => ?_, List.isChain_append.2 ⟨hbefore, .singleton _, ?_⟩⟩
      · rcases List.mem_append.1 hr with hr | hr
        · exact h.le r (List.mem_append_left _ hr)
        · obtain rfl := List.mem_singleton.1 hr
          exact hle'
      · simpa only [List.head?_cons, Option.mem_def, Option.some.injEq, forall_eq'] using hgap
    · -- A byte is missing between the last run and the new one.
      rename_i hnext
      rw [Byte.succ?_eq_some_iff] at hnext
      refine ⟨fun r hr => ?_, List.isChain_append.2 ⟨h.apart, .singleton _, ?_⟩⟩
      · rcases List.mem_append.1 hr with hr | hr
        · exact h.le r hr
        · obtain rfl := List.mem_singleton.1 hr
          exact UInt8.le_refl b
      · simp only [List.getLast?_concat, List.head?_cons, Option.mem_def, Option.some.injEq,
          forall_eq']
        omega

/-- Bytes in ascending order, all of them behind runs, are gathered into canonical runs that cover
just these bytes in addition. -/
theorem isCanonical_foldl_pushRun {bytes : List UInt8} (h : bytes.Pairwise (·.toNat < ·.toNat))
    (hrs : IsCanonical rs) (hbehind : ∀ b', Covers rs b' → ∀ b ∈ bytes, b'.toNat < b.toNat) :
    IsCanonical (bytes.foldl pushRun rs) ∧
      (∀ b, Covers (bytes.foldl pushRun rs) b ↔ Covers rs b ∨ b ∈ bytes) ∧
      ((bytes.foldl pushRun rs).map width).sum = (rs.map width).sum + bytes.length := by
  induction bytes generalizing rs with
  | nil => exact ⟨hrs, fun b => by simp, rfl⟩
  | cons b bytes ih =>
    obtain ⟨hfirst, hothers⟩ := List.pairwise_cons.1 h
    have hpushed := hrs.push_byte fun b' hb' => hbehind b' hb' b List.mem_cons_self
    have hbehind' (b' : UInt8) (hb' : Covers (pushRun rs b) b') (other : UInt8)
        (hother : other ∈ bytes) : b'.toNat < other.toNat := by
      rcases (covers_pushRun hrs b b').1 hb' with hb' | rfl
      · exact hbehind b' hb' other (List.mem_cons_of_mem b hother)
      · exact hfirst other hother
    obtain ⟨hcanonical, hcovers, hsum⟩ := ih hothers hpushed hbehind'
    refine ⟨hcanonical, fun b' => ?_, ?_⟩
    · rw [List.foldl_cons, hcovers, covers_pushRun hrs, List.mem_cons, or_assoc]
    · rw [List.foldl_cons, hsum, sum_width_pushRun hrs, List.length_cons, Nat.add_right_comm,
        Nat.add_assoc]

/-! ### A set and its runs -/

/-- The bits of a word that are set below a place are counted one by one. -/
theorem cpopNatRec_eq_countP (x : BitVec 64) (n acc : Nat) :
    x.cpopNatRec n acc = acc + (List.range n).countP x.getLsbD := by
  induction n generalizing acc with
  | zero => rfl
  | succ n ih =>
    rw [BitVec.cpopNatRec_succ, ih, List.range_succ, List.countP_append, List.countP_singleton]
    cases x.getLsbD n with
    | false => simp
    | true =>
      rw [Bool.toNat_true, if_pos rfl]
      omega

/-- A word has as many bits set as there are bytes of the set in its quarter. -/
theorem cpop_words (s : ByteSet) {i : Nat} (hi : i < 4) :
    s.words[i].toBitVec.cpop.toNat =
      (List.range 64).countP fun j => s.contains (UInt8.ofNat (64 * i + j)) := by
  rw [BitVec.toNat_cpop, cpopNatRec_eq_countP, Nat.zero_add]
  refine List.countP_congr fun j hj => ?_
  rw [s.contains_ofNat hi (List.mem_range.1 hj)]

/-- As many bits are set in the words of a set as it has bytes. -/
theorem size_eq_length_toList (s : ByteSet) : s.size = s.toList.length := by
  have hwords : s.words.toList = [s.words[0], s.words[1], s.words[2], s.words[3]] := by
    obtain ⟨⟨⟨_ | ⟨a, _ | ⟨b, _ | ⟨c, _ | ⟨d, _ | ⟨e, rest⟩⟩⟩⟩⟩⟩, h⟩⟩ := s <;> simp at h
    rfl
  -- The bytes, too, are counted in four quarters.
  have hrange : List.range 256 = List.range (64 + (64 + (64 + 64))) := rfl
  rw [toList, ← List.countP_eq_length_filter, Byte.all, List.countP_map, hrange, size, hwords]
  simp only [List.range_add, List.countP_append, List.countP_map, List.map_append, List.map_map,
    List.foldl_cons, List.foldl_nil, cpop_words, Function.comp_def]
  simp only [← Nat.add_assoc, Nat.reduceAdd, Nat.reduceMul, Nat.zero_add]

theorem pairwise_toList (s : ByteSet) : s.toList.Pairwise (·.toNat < ·.toNat) :=
  Byte.pairwise_all.filter _

/-- What the runs of a set are gathered from. -/
theorem runs_spec (s : ByteSet) : IsCanonical s.runs ∧ (∀ b, Covers s.runs b ↔ b ∈ s.toList) ∧
    (s.runs.map width).sum = s.toList.length := by
  obtain ⟨hcanonical, hcovers, hsum⟩ :=
    isCanonical_foldl_pushRun s.pairwise_toList .nil fun b hb => absurd hb (not_covers_nil b)
  refine ⟨hcanonical, fun b => ?_, ?_⟩
  · rw [runs, hcovers, or_iff_right (not_covers_nil b)]
  · rw [runs, hsum, List.map_nil, List.sum_nil, Nat.zero_add]

theorem isCanonical_runs (s : ByteSet) : IsCanonical s.runs := s.runs_spec.1

/-- The runs of a set cover its bytes. -/
theorem covers_runs : Covers s.runs b ↔ s.contains b = true := by
  rw [s.runs_spec.2.1, mem_toList]

/-- The runs of a set have as many bytes as the set. -/
theorem sum_width_runs (s : ByteSet) : (s.runs.map width).sum = s.size := by
  rw [s.runs_spec.2.2, size_eq_length_toList]

/-- A set that is one run of one byte is the set of that byte. -/
theorem eq_single_of_single? (h : s.single? = some b) : s = single b := by
  have hrun : s.runs = [(b, b)] := by
    unfold single? at h
    split at h
    · rename_i lo hi hruns
      split at h
      · rename_i heq
        cases h
        rw [hruns, heq]
      · cases h
    · cases h
  ext b'
  rw [Bool.eq_iff_iff, ← covers_runs, hrun, covers_singleton_self, contains_single, beq_iff_eq,
    eq_comm]

theorem contains_foldl_insertRange (s : ByteSet) (rs : List (UInt8 × UInt8)) (b : UInt8) :
    (rs.foldl (fun s r => s.insertRange r.1 r.2) s).contains b = true ↔
      s.contains b = true ∨ Covers rs b := by
  induction rs generalizing s with
  | nil => simp [not_covers_nil]
  | cons r rs ih =>
    rw [List.foldl_cons, ih, contains_insertRange, covers_cons, ← or_assoc]
    simp only [Bool.or_eq_true, Bool.and_eq_true, decide_eq_true_eq, UInt8.le_iff_toNat_le]

/-- A set that is built from runs has the bytes that they cover. -/
theorem contains_ofRuns : (ofRuns rs).contains b = true ↔ Covers rs b := by
  rw [ofRuns, contains_foldl_insertRange, contains_emptyCollection]
  simp

/-- A set is built from its runs. -/
theorem ofRuns_runs (s : ByteSet) : ofRuns s.runs = s := by
  ext b
  rw [Bool.eq_iff_iff, contains_ofRuns, covers_runs]

/-- Canonical runs are the runs of the set that they build. -/
theorem runs_ofRuns (h : IsCanonical rs) : (ofRuns rs).runs = rs :=
  (isCanonical_runs _).eq_of_covers h fun _ => covers_runs.trans contains_ofRuns

/-! ### Operations -/

/-- The bytes of a set. -/
def bytes (s : ByteSet) : Set UInt8 := {b | s.contains b = true}

@[simp]
theorem mem_bytes : b ∈ s.bytes ↔ s.contains b = true := Iff.rfl

/-- The size of a set is the number of its bytes. -/
theorem ncard_bytes (s : ByteSet) : s.bytes.ncard = s.size := by
  have hnodup : s.toList.Nodup :=
    s.pairwise_toList.imp fun hlt => ne_of_apply_ne UInt8.toNat (Nat.ne_of_lt hlt)
  have hbytes : s.bytes = s.toList.toFinset := by
    ext b
    rw [Finset.mem_coe, List.mem_toFinset, mem_toList, mem_bytes]
  rw [hbytes, Set.ncard_coe_finset, List.toFinset_card_of_nodup hnodup, size_eq_length_toList]

/-- Sets of bytes that do not tell the two cases of a letter apart. -/
def IgnoresCase (bytes : Set UInt8) : Prop := ∀ b ∈ bytes, Byte.swapCase b ∈ bytes

/-- Both cases of the letters of a set are the least that is to be added to it. -/
theorem isLeast_bytes_foldCase (s : ByteSet) :
    IsLeast {bytes | s.bytes ⊆ bytes ∧ IgnoresCase bytes} s.foldCase.bytes := by
  have hmem (b : UInt8) : b ∈ s.foldCase.bytes ↔ b ∈ s.bytes ∨ Byte.swapCase b ∈ s.bytes := by
    rw [mem_bytes, contains_foldCase, Bool.or_eq_true, mem_bytes, mem_bytes]
  refine ⟨⟨fun b hb => (hmem b).2 (.inl hb), fun b hb => ?_⟩, fun larger hlarger b hb => ?_⟩
  · rw [hmem, Byte.swapCase_swapCase]
    exact ((hmem b).1 hb).symm
  · rcases (hmem b).1 hb with hb | hb
    · exact hlarger.1 hb
    · rw [← Byte.swapCase_swapCase b]
      exact hlarger.2 _ (hlarger.1 hb)

/-- A step in building a set. -/
inductive Operation where
  /-- Adds a byte. -/
  | insert (b : UInt8)
  /-- Takes a byte out. -/
  | erase (b : UInt8)
  /-- Adds the bytes from `lo` to `hi`. -/
  | insertRange (lo hi : UInt8)
  /-- Adds the bytes of another set. -/
  | union (t : ByteSet)
  /-- Exchanges the bytes in the set for those that it lacks. -/
  | compl
  /-- Adds the other case of each letter. -/
  | foldCase

namespace Operation

/-- The set after an operation. -/
def apply (s : ByteSet) : Operation → ByteSet
  | insert b => s.insert b
  | erase b => s.erase b
  | insertRange lo hi => s.insertRange lo hi
  | union t => s.union t
  | compl => s.compl
  | foldCase => s.foldCase

/-- What an operation does to the bytes of a set. -/
def act (bytes : Set UInt8) : Operation → Set UInt8
  | insert b => Insert.insert b bytes
  | erase b => bytes \ {b}
  | insertRange lo hi => bytes ∪ {b | lo ≤ b ∧ b ≤ hi}
  | union t => bytes ∪ t.bytes
  | compl => bytesᶜ
  | foldCase => ⋂₀ {larger | bytes ⊆ larger ∧ IgnoresCase larger}

/-- Each operation acts on the bytes of a set. -/
theorem bytes_apply (s : ByteSet) (op : Operation) : (apply s op).bytes = act s.bytes op := by
  cases op with
  | insert a =>
    ext b
    simp [apply, act, or_comm, eq_comm (a := a)]
  | erase a =>
    ext b
    simp [apply, act, eq_comm (a := a)]
  | insertRange lo hi =>
    ext b
    simp [apply, act]
  | union t =>
    ext b
    simp [apply, act]
  | compl =>
    ext b
    simp [apply, act]
  | foldCase => exact (isLeast_bytes_foldCase s).csInf_eq.symm

theorem bytes_foldl_apply (s : ByteSet) (ops : List Operation) :
    (ops.foldl apply s).bytes = ops.foldl act s.bytes := by
  induction ops generalizing s with
  | nil => rfl
  | cons op ops ih => rw [List.foldl_cons, List.foldl_cons, ih, bytes_apply]

end Operation

/-- The runs of a set are its canonical form. Let `s` be what the operations `ops` build from a
`given` set, each of them acting on the `bytes` as the operation on sets does. Then `s.runs` are in
ascending order with a byte missing between each of them and the next one, as `IsCanonical` says;
they cover the bytes of `s` and no others, putting them into the empty set gives `s` back, and the
numbers of their bytes add up to `s.size`, which is the number of its bytes. Any runs `rs` of this
form are those of the set that they build. For `s.foldCase` no more bytes are added than are needed
not to tell the cases apart. -/
theorem runs_canonical (given : ByteSet) (ops : List Operation) :
    let s := ops.foldl Operation.apply given
    s.bytes = ops.foldl Operation.act given.bytes ∧
      IsLeast {larger | s.bytes ⊆ larger ∧ IgnoresCase larger} s.foldCase.bytes ∧
      IsCanonical s.runs ∧ (∀ b, s.contains b = true ↔ Covers s.runs b) ∧ ofRuns s.runs = s ∧
      (s.runs.map width).sum = s.size ∧ s.size = s.bytes.ncard ∧
      ∀ rs, IsCanonical rs → (ofRuns rs).runs = rs := by
  intro s
  exact ⟨Operation.bytes_foldl_apply given ops, isLeast_bytes_foldCase s, isCanonical_runs s,
    fun b => covers_runs.symm, ofRuns_runs s, sum_width_runs s, (ncard_bytes s).symm,
    fun rs => runs_ofRuns⟩

/-- All bytes but 64 and 128 are three runs, the first of which begins with the first byte and the
last of which ends with the last one. -/
theorem runs_canonical_gaps :
    let rs : List (UInt8 × UInt8) := [(0, 63), (65, 127), (129, 255)]
    let ops : List Operation := [.insert 64, .insert 128, .compl]
    IsCanonical rs ∧ (ofRuns rs).runs = rs ∧ (ops.foldl Operation.apply ∅).runs = rs := by
  intro rs ops
  have hrs : IsCanonical rs := ⟨by simp [rs], by decide⟩
  obtain ⟨-, -, -, -, -, -, -, hruns⟩ := runs_canonical ∅ ops
  have hset : ops.foldl Operation.apply ∅ = ofRuns rs := by decide +kernel
  refine ⟨hrs, hruns rs hrs, ?_⟩
  rw [hset]
  exact hruns rs hrs

end ByteSet

end PosixRegex
