import VeeamSignature.Crc32Steps
import VeeamSignature.Signature2.Refinement

/-!
# Which changes of the file show in its signature

`compute_crc32` looks at the bytes of whole words and at the first byte after
them.  A change of one byte of the file shows exactly when the byte is one of
these in a chunk that is hashed.
-/

namespace VeeamSignature

open Slices

/-! ## One byte of a buffer -/

section Buffer

variable {bytes : List Byte} {p : ℕ} {byte : Byte}

theorem mmCrc32U8_value_injective (crc : Crc32) : Function.Injective (mmCrc32U8 crc) := by
  intro a b h
  have hsame : [a] = [b] := foldl_mmCrc32U8_short crc (by simp) rfl h
  exact List.head_eq_of_cons_eq hsame

theorem foldl_mmCrc32U8_set_eq_iff (crc : Crc32) (hp : p < bytes.length) :
    (bytes.set p byte).foldl mmCrc32U8 crc = bytes.foldl mmCrc32U8 crc ↔ byte = bytes[p] := by
  have hsplit : ∃ before rest, bytes = before ++ bytes[p] :: rest ∧ before.length = p ∧
      bytes.set p byte = before ++ byte :: rest := List.exists_of_set hp
  obtain ⟨before, rest, hbytes, -, hset⟩ := hsplit
  generalize bytes[p] = old at hbytes ⊢
  rw [hset, hbytes, List.foldl_append, List.foldl_append, List.foldl_cons, List.foldl_cons,
    (foldl_mmCrc32U8_injective rest).eq_iff, (mmCrc32U8_value_injective _).eq_iff]

theorem foldl_mmCrc32U8_replicate_eq_iff (crc : Crc32) {count : ℕ} (hpos : 0 < count)
    (hcount : count ≤ 4) (a b : Byte) :
    (List.replicate count a).foldl mmCrc32U8 crc = (List.replicate count b).foldl mmCrc32U8 crc ↔
      a = b := by
  constructor
  · intro h
    have hsame : List.replicate count a = List.replicate count b := by
      apply foldl_mmCrc32U8_short crc _ _ h
      · rwa [List.length_replicate]
      · rw [List.length_replicate, List.length_replicate]
    exact List.replicate_right_injective hpos.ne' hsame
  · rintro rfl
    rfl

theorem loadU8_set (bytes : List Byte) {p : ℕ} (hp : 0 < p) (byte : Byte) :
    loadU8 (bytes.set p byte) = loadU8 bytes := by
  obtain ⟨p, rfl⟩ := Nat.exists_eq_succ_of_ne_zero hp.ne'
  cases bytes with
  | nil => rfl
  | cons first rest => rfl

/-- Another byte in one place shows in the checksum unless it stands behind the
first byte of the tail. -/
theorem crcOf_set_eq_iff (hp : p < bytes.length) :
    crcOf (bytes.set p byte) = crcOf bytes ↔
      byte = bytes[p] ∨ 4 * (bytes.length / 4) < p := by
  have hwords : 4 * (bytes.length / 4) ≤ bytes.length := Nat.mul_div_le _ 4
  rw [crcOf_eq_foldl_fed, crcOf_eq_foldl_fed, crc32Fed, crc32Fed, crc32TailOf, crc32TailOf,
    List.length_set, List.foldl_append, List.foldl_append]
  rcases Nat.lt_trichotomy p (4 * (bytes.length / 4)) with hlt | heq | hgt
  · have htake : p < (bytes.take (4 * (bytes.length / 4))).length := by
      rw [List.length_take]
      omega
    rw [List.drop_set_of_lt hlt, List.take_set, (foldl_mmCrc32U8_injective _).eq_iff,
      foldl_mmCrc32U8_set_eq_iff 0 htake, List.getElem_take, or_iff_left (by omega)]
  · rw [← heq, List.take_set_of_le (le_refl p), List.drop_set, if_neg (Nat.lt_irrefl p),
      Nat.sub_self, List.drop_eq_getElem_cons hp, or_iff_left (Nat.lt_irrefl p)]
    exact foldl_mmCrc32U8_replicate_eq_iff _ (by omega) (by omega) byte bytes[p]
  · rw [List.take_set_of_le hgt.le, List.drop_set, if_neg (by omega), loadU8_set _ (by omega)]
    exact iff_of_true rfl (.inr hgt)

end Buffer

/-! ## One byte of a hashed memory -/

section Memory

variable {α : Type*} {xs : List α} {p start length : ℕ} {a : α}

theorem slice_set (hstart : start ≤ p) :
    slice (xs.set p a) start length = (slice xs start length).set (p - start) a := by
  rw [slice, List.drop_set, if_neg (by omega), List.take_set]
  rfl

theorem slice_set_of_lt (hp : p < start) :
    slice (xs.set p a) start length = slice xs start length := by
  rw [slice, List.drop_set_of_lt hp]
  rfl

theorem getElem?_slice (hp : p < length) : (slice xs start length)[p]? = xs[start + p]? := by
  rw [slice, List.getElem?_take_of_lt hp, List.getElem?_drop]

end Memory

/-- Of a memory hashed in chunks, the places that the checksums depend on. -/
def FedAt (chunkSize size p : ℕ) : Prop :=
  p < size ∧ p % chunkSize ≤ 4 * (min chunkSize (size - p / chunkSize * chunkSize) / 4)

instance (chunkSize size p : ℕ) : Decidable (FedAt chunkSize size p) :=
  inferInstanceAs (Decidable (_ ∧ _))

section Records

variable {c : ℕ} {bytes : List Byte} {p : ℕ} {byte : Byte}

theorem crcOf_slice_set_eq_iff (hne : bytes[p]? ≠ some byte) (start : ℕ) :
    crcOf (slice (bytes.set p byte) start c) = crcOf (slice bytes start c) ↔
      ¬ (start ≤ p ∧ p - start < min c (bytes.length - start) ∧
        p - start ≤ 4 * (min c (bytes.length - start) / 4)) := by
  rcases Nat.lt_or_ge p start with hbefore | hstart
  · rw [slice_set_of_lt hbefore]
    exact iff_of_true rfl fun h => absurd h.1 (Nat.not_le.mpr hbefore)
  · rw [slice_set hstart, ← length_slice bytes start c]
    rcases Nat.lt_or_ge (p - start) (slice bytes start c).length with hin | hafter
    · have hbyte : byte ≠ (slice bytes start c)[p - start] := by
        intro heq
        apply hne
        have hlt : p - start < c := hin.trans_le (length_slice bytes start c ▸ Nat.min_le_left _ _)
        rw [← Nat.add_sub_cancel' hstart, ← getElem?_slice hlt, List.getElem?_eq_getElem hin, heq]
      rw [crcOf_set_eq_iff hin, or_iff_right hbyte]
      omega
    · rw [List.set_eq_of_length_le hafter]
      exact iff_of_true rfl fun h => absurd h.2.1 (Nat.not_lt.mpr hafter)

theorem fedAt_iff_exists (hc : 0 < c) {size : ℕ} :
    FedAt c size p ↔ ∃ i < chunkCount c size, i * c ≤ p ∧ p - i * c < min c (size - i * c) ∧
      p - i * c ≤ 4 * (min c (size - i * c) / 4) := by
  have hmod : p - p / c * c = p % c := by
    rw [Nat.mod_eq_sub_div_mul]
  have hle : p / c * c ≤ p := Nat.div_mul_le_self p c
  have hlt : p % c < c := Nat.mod_lt p hc
  constructor
  · rintro ⟨hp, hfed⟩
    refine ⟨p / c, ?_, hle, ?_, ?_⟩
    · rw [chunkCount, ← Nat.succ_le_iff, Nat.le_div_iff_mul_le hc, Nat.succ_mul]
      omega
    · omega
    · rwa [hmod]
  · rintro ⟨i, -, hstart, hin, hfed⟩
    have hi : p / c = i := by
      apply Nat.div_eq_of_lt_le hstart
      rw [Nat.add_mul, Nat.one_mul]
      omega
    refine ⟨by omega, ?_⟩
    rw [hi, ← hmod, hi]
    exact hfed

/-- A changed byte changes the records of a memory exactly where it is fed. -/
theorem records_set_eq_iff (hc : 0 < c) (hne : bytes[p]? ≠ some byte) :
    Signature2.records c (bytes.set p byte) = Signature2.records c bytes ↔
      ¬ FedAt c bytes.length p := by
  rw [Signature2.records, Signature2.records, flatMap_crc32Bytes_injective.eq_iff, chunks, chunks,
    List.length_set, List.map_map, List.map_map, List.map_inj_left, fedAt_iff_exists hc]
  simp only [Function.comp_apply, crcOf_slice_set_eq_iff hne, List.mem_range, not_exists, not_and]

end Records

/-! ## One byte of the file -/

/-- The file with another byte in one place. -/
def FileContent.change (F : FileContent) (p : ℕ) (byte : Byte) : FileContent :=
  ⟨F.bytes.set p byte, by rw [List.length_set]; exact F.size_lt⟩

@[simp] theorem FileContent.size_change (F : FileContent) (p : ℕ) (byte : Byte) :
    (F.change p byte).size = F.size :=
  List.length_set

section Block

variable {F : FileContent} {p : ℕ} {byte : Byte}

theorem records_change_eq_iff (hne : F.bytes[p]? ≠ some byte) {c start size : ℕ} (hc : 0 < c)
    (hinside : start + size ≤ F.size) :
    Signature2.records c (slice (F.change p byte).bytes start size) =
        Signature2.records c (slice F.bytes start size) ↔
      ¬ (start ≤ p ∧ FedAt c size (p - start)) := by
  have hlength : (slice F.bytes start size).length = size := length_slice_of_le hinside
  rcases Nat.lt_or_ge p start with hbefore | hstart
  · rw [FileContent.change, slice_set_of_lt hbefore]
    exact iff_of_true rfl fun h => absurd h.1 (Nat.not_le.mpr hbefore)
  · have hslice : (slice F.bytes start size)[p - start]? ≠ some byte := by
      intro heq
      have hlt : p - start < size := by
        obtain ⟨hlt, -⟩ := List.getElem?_eq_some_iff.mp heq
        rwa [hlength] at hlt
      rw [getElem?_slice hlt, Nat.add_sub_cancel' hstart] at heq
      exact hne heq
    rw [FileContent.change, slice_set hstart, records_set_eq_iff hc hslice, hlength]
    tauto

end Block

/-- The records of parts of the file, one part for each block. -/
theorem flatMap_records_change_eq_iff {F : FileContent} {p : ℕ} {byte : Byte}
    (hne : F.bytes[p]? ≠ some byte) {blocks : List Block} {start : Block → ℕ}
    (hinside : ∀ b ∈ blocks, start b + b.size ≤ F.size) :
    (blocks.flatMap fun b =>
        Signature2.records b.chunkSize (slice (F.change p byte).bytes (start b) b.size)) =
      (blocks.flatMap fun b => Signature2.records b.chunkSize (slice F.bytes (start b) b.size)) ↔
    ∀ b ∈ blocks, ¬ (start b ≤ p ∧ FedAt b.chunkSize b.size (p - start b)) := by
  have hlength : ∀ b ∈ blocks,
      (Signature2.records b.chunkSize (slice (F.change p byte).bytes (start b) b.size)).length =
        (Signature2.records b.chunkSize (slice F.bytes (start b) b.size)).length := by
    intro b _
    simp only [Signature2.records, Signature2.length_flatMap_crc32Bytes, List.length_map,
      length_chunks, length_slice, FileContent.change, List.length_set]
  rw [flatMap_eq_iff hlength]
  exact forall₂_congr fun b hb => records_change_eq_iff hne b.chunkSize_pos (hinside b hb)

theorem fedAt_all_iff {c : ℕ} (hc : 0 < c) {size : ℕ} :
    (∀ p < size, FedAt c size p) ↔ (size < c ∨ c % 4 ≤ 1) ∧ size % c % 4 ≤ 1 := by
  have hsize : size / c * c + size % c = size := Nat.div_add_mod' size c
  have htail : size % c < c := Nat.mod_lt size hc
  constructor
  · intro h
    constructor
    · by_contra hno
      have hfed := (h (c - 1) (by omega)).2
      rw [Nat.mod_eq_of_lt (by omega), Nat.div_eq_of_lt (by omega)] at hfed
      omega
    · by_contra hno
      have hlast : (size - 1) / c = size / c ∧ (size - 1) % c = size % c - 1 := by
        rw [Nat.div_mod_unique hc, Nat.mul_comm]
        omega
      have hfed := (h (size - 1) (by omega)).2
      rw [hlast.1, hlast.2] at hfed
      omega
  · rintro ⟨hwhole, hrest⟩ p hp
    have hp' : p / c * c + p % c = p := Nat.div_add_mod' p c
    have hmod : p % c < c := Nat.mod_lt p hc
    refine ⟨hp, ?_⟩
    rcases Nat.lt_or_ge size (p / c * c + c) with hlast | hfull
    · have hquot : size / c = p / c := by
        apply Nat.div_eq_of_lt_le
        · omega
        · rw [Nat.add_mul, Nat.one_mul]
          omega
      rw [hquot] at hsize
      omega
    · omega

theorem byte_ne_add_one : ∀ byte : Byte, byte ≠ byte + 1 := by
  decide

section Signature

variable {F : FileContent} {n : ℕ} {c : ChunkSize} {blocks : List Block}

theorem Signature.run_change_eq_iff (hF : F.size ≠ 0)
    (hblocks : mappedFileBlocks F.size n c = some blocks) (hinside : ∀ b ∈ blocks, b.Inside F.size)
    {p : ℕ} {byte : Byte} (hne : F.bytes[p]? ≠ some byte) :
    run (F.change p byte) n c = run F n c ↔
      ∀ b ∈ blocks, ¬ (b.offset ≤ p ∧ FedAt b.chunkSize b.size (p - b.offset)) := by
  have hchanged : run (F.change p byte) n c = .success (blocks.flatMap fun b =>
      Signature2.records b.chunkSize (slice (F.change p byte).bytes b.offset b.size)) := by
    apply Signature2.run_inside
    · rwa [FileContent.size_change]
    · rwa [FileContent.size_change]
    · rwa [FileContent.size_change]
  rw [hchanged, Signature2.run_inside hF hblocks hinside, Outcome.success.injEq]
  exact flatMap_records_change_eq_iff hne hinside

/-- The first version ends with another result for a changed byte exactly when
the byte is fed in a block.  So it detects every change of a byte exactly when
there is one block whose chunks leave no byte but the first behind whole words. -/
theorem Signature.changed_byte_detected_iff (hn : 1 ≤ n) (hF : F.size ≠ 0)
    (hblocks : mappedFileBlocks F.size n c = some blocks)
    (hinside : ∀ b ∈ blocks, b.Inside F.size) :
    (∀ p byte, F.bytes[p]? ≠ some byte →
      (run (F.change p byte) n c ≠ run F n c ↔
        ∃ b ∈ blocks, b.offset ≤ p ∧ FedAt b.chunkSize b.size (p - b.offset))) ∧
    ((∀ p byte, p < F.size → F.bytes[p]? ≠ some byte →
        run (F.change p byte) n c ≠ run F n c) ↔
      (n = 1 ∨ F.size < 2 * c.value) ∧ (F.size < c.value ∨ c.value % 4 ≤ 1) ∧
        F.size % c.value % 4 ≤ 1) := by
  have hdetected : ∀ p byte, F.bytes[p]? ≠ some byte →
      (run (F.change p byte) n c ≠ run F n c ↔
        ∃ b ∈ blocks, b.offset ≤ p ∧ FedAt b.chunkSize b.size (p - b.offset)) := by
    intro p byte hne
    rw [ne_eq, run_change_eq_iff hF hblocks hinside hne]
    push Not
    rfl
  refine ⟨hdetected, ?_⟩
  have hall : (∀ p byte, p < F.size → F.bytes[p]? ≠ some byte →
        run (F.change p byte) n c ≠ run F n c) ↔
      ∀ p < F.size, ∃ b ∈ blocks, b.offset ≤ p ∧ FedAt b.chunkSize b.size (p - b.offset) := by
    constructor
    · intro h p hp
      have hother : F.bytes[p]? ≠ some (F.bytes[p] + 1) := by
        rw [List.getElem?_eq_getElem hp, ne_eq, Option.some.injEq]
        exact byte_ne_add_one _
      exact (hdetected p _ hother).mp (h p _ hp hother)
    · exact fun h p byte hp hne => (hdetected p byte hne).mpr (h p hp)
  rw [hall, ← reducedCount_eq_one_iff c.pos hn, ← fedAt_all_iff c.pos]
  constructor
  · intro h
    have hone : reducedCount F.size n c.value = 1 := by
      by_contra hk
      obtain ⟨p, hp, hgap⟩ := layout_gap c.pos hn F.size_lt hk hblocks hinside
      obtain ⟨b, hb, hstart, hfed⟩ := h p hp
      apply hgap b hb
      have hin := hfed.1
      constructor
      · exact hstart
      · show p < b.offset + b.size
        omega
    refine ⟨hone, fun p hp => ?_⟩
    obtain rfl := Option.some.inj (hblocks.symm.trans
      (layout_single c.pos hn F.size_lt_modulus hone))
    obtain ⟨b, hb, -, hfed⟩ := h p hp
    obtain rfl := List.mem_singleton.mp hb
    exact hfed
  · rintro ⟨hone, hfed⟩ p hp
    obtain rfl := Option.some.inj (hblocks.symm.trans
      (layout_single c.pos hn F.size_lt_modulus hone))
    exact ⟨_, List.mem_singleton_self _, Nat.zero_le p, hfed p hp⟩

end Signature

theorem Signature.changed_byte_detected_iff_fiveChunks :
    (∀ p byte, fiveChunks.bytes[p]? ≠ some byte →
      (run (fiveChunks.change p byte) 2 smallestChunk ≠ run fiveChunks 2 smallestChunk ↔
        ∃ b ∈ [leftBlock, rightBlock], b.offset ≤ p ∧
          FedAt b.chunkSize b.size (p - b.offset))) ∧
    ((∀ p byte, p < fiveChunks.size → fiveChunks.bytes[p]? ≠ some byte →
        run (fiveChunks.change p byte) 2 smallestChunk ≠ run fiveChunks 2 smallestChunk) ↔
      (2 = 1 ∨ fiveChunks.size < 2 * smallestChunk.value) ∧
        (fiveChunks.size < smallestChunk.value ∨ smallestChunk.value % 4 ≤ 1) ∧
          fiveChunks.size % smallestChunk.value % 4 ≤ 1) := by
  refine changed_byte_detected_iff (by decide) ?_ fiveChunks_layout fiveChunks_inside
  rw [size_fiveChunks]
  decide

namespace Signature2

open LabelledSystem

variable {F : FileContent} {n : ℕ} {c : ChunkSize} {blocks : List Block}

theorem System.written_records {s : System} (hn : 1 ≤ n)
    (hblocks : blockFileBlocks F.size n c = some blocks) {file : List Byte}
    (hinside : ∀ b ∈ blocks, b.Inside file.length) (hcounts : EveryReadCounts blocks)
    (hs : Reachable (System.step file) Action.Complete (System.start blocks) s)
    (hexit : s.exitCode = some .success) :
    s.pool.writer.written = blocks.flatMap fun b => records b.chunkSize (slice file 0 b.size) := by
  obtain ⟨-, hfit⟩ := blockFileBlocks_fit hn hblocks
  have hindexed : Indexed blocks := fun k b hb => layout_blockId hn hblocks hb
  have hpool : Reachable (Pool.next file) (fun a => a.2 = complete) (Pool.start blocks) s.pool :=
    System.pool_reachable (fun _ _ _ ha => ha) hs
  exact written_eq hindexed hfit hcounts hinside hpool (System.called_of_success hs hexit)

/-- The second version writes another signature for a changed byte exactly when
the byte is fed in a block, were the block at the start of the file. -/
theorem changed_byte_written_iff (hn : 1 ≤ n)
    (hblocks : blockFileBlocks F.size n c = some blocks) (hinside : ∀ b ∈ blocks, b.Inside F.size)
    (hcounts : EveryReadCounts blocks) {p : ℕ} {byte : Byte} (hne : F.bytes[p]? ≠ some byte)
    {s s' : System} (hs : Reachable (System.step F.bytes) Action.Complete (System.start blocks) s)
    (hexit : s.exitCode = some .success)
    (hs' : Reachable (System.step (F.change p byte).bytes) Action.Complete (System.start blocks) s')
    (hexit' : s'.exitCode = some .success) :
    s'.pool.writer.written ≠ s.pool.writer.written ↔
      ∃ b ∈ blocks, FedAt b.chunkSize b.size p := by
  have hstart : ∀ b ∈ blocks, 0 + b.size ≤ F.size := by
    intro b hb
    rw [Nat.zero_add]
    exact (Nat.le_add_left _ _).trans (hinside b hb)
  have hchanged : ∀ b ∈ blocks, b.Inside (F.change p byte).bytes.length := by
    intro b hb
    rw [FileContent.change, List.length_set]
    exact hinside b hb
  rw [System.written_records hn hblocks hinside hcounts hs hexit,
    System.written_records hn hblocks hchanged hcounts hs' hexit', ne_eq,
    flatMap_records_change_eq_iff hne hstart]
  simp

theorem changed_byte_written_iff_fiveChunks : ∃ s s' : System,
    s'.pool.writer.written ≠ s.pool.writer.written ↔
      ∃ b ∈ [leftBlock, rightBlock], FedAt b.chunkSize b.size 0 := by
  obtain ⟨hids, -⟩ := blockFileBlocks_fit (by decide) fiveChunks_layout
  obtain ⟨s, hs, hexit⟩ := exists_success fiveChunks.bytes (by decide) hids
  obtain ⟨s', hs', hexit'⟩ := exists_success (fiveChunks.change 0 1).bytes (by decide) hids
  have hchanged : fiveChunks.bytes[0]? ≠ some 1 := by
    rw [fiveChunks, zeroFile, List.getElem?_replicate, if_pos (by decide)]
    decide
  exact ⟨s, s', changed_byte_written_iff (by decide) fiveChunks_layout fiveChunks_inside
    fiveChunks_counts hchanged hs hexit hs' hexit'⟩

end Signature2

end VeeamSignature
