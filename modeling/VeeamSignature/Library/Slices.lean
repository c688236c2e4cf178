import Mathlib.Data.Finset.Card
import Mathlib.Data.Finset.Range
import Mathlib.Data.List.Basic
import Mathlib.Tactic.Ring
import Mathlib.Algebra.Order.Group.Nat

/-!
# Slices, chunks and tilings of a list

`chunks c xs` cuts `xs` into pieces of length `c`, the last one possibly
shorter.  A tiling is a list of spans that follow one another without a gap;
the slices of a tiling put together are the slice it covers, and a tiling
whose spans are multiples of `c` has the same chunks as the whole.
-/

namespace VeeamSignature.Slices

variable {α β : Type*}

/-- The `length` elements of `xs` from position `start`, fewer at the end. -/
def slice (xs : List α) (start length : ℕ) : List α :=
  (xs.drop start).take length

@[simp] theorem length_slice (xs : List α) (start length : ℕ) :
    (slice xs start length).length = min length (xs.length - start) := by
  simp [slice]

theorem length_slice_of_le {xs : List α} {start length : ℕ} (h : start + length ≤ xs.length) :
    (slice xs start length).length = length := by
  rw [length_slice]
  omega

theorem slice_all (xs : List α) : slice xs 0 xs.length = xs := by
  simp [slice]

@[simp] theorem slice_zero_length (xs : List α) (start : ℕ) : slice xs start 0 = [] := by
  simp [slice]

theorem slice_infix (xs : List α) (start length : ℕ) : slice xs start length <:+: xs :=
  (List.take_prefix _ _).isInfix.trans (List.drop_suffix _ _).isInfix

theorem slice_slice (xs : List α) {start length inner count : ℕ} (h : inner + count ≤ length) :
    slice (slice xs start length) inner count = slice xs (start + inner) count := by
  have hcount : count ≤ length - inner := by omega
  simp [slice, List.drop_take, List.take_take, hcount]

theorem slice_add (xs : List α) (start first second : ℕ) :
    slice xs start (first + second) = slice xs start first ++ slice xs (start + first) second := by
  simp only [slice, List.take_add, List.drop_drop]

theorem slice_of_le (xs : List α) {start length : ℕ} (h : xs.length ≤ start + length) :
    slice xs start length = slice xs start (xs.length - start) := by
  rw [slice, slice, List.take_of_length_le, List.take_of_length_le]
  · rw [List.length_drop]
  · rw [List.length_drop]
    omega

theorem slice_append_left (xs ys : List α) {start length : ℕ} (h : start + length ≤ xs.length) :
    slice (xs ++ ys) start length = slice xs start length := by
  rw [slice, List.drop_append_of_le_length (by omega),
    List.take_append_of_le_length (by rw [List.length_drop]; omega)]
  rfl

theorem slice_append_right (xs ys : List α) (start length : ℕ) :
    slice (xs ++ ys) (xs.length + start) length = slice ys start length := by
  rw [slice, ← List.drop_drop, List.drop_left]
  rfl

theorem flatMap_eq_iff {f g : α → List β} {xs : List α}
    (hlength : ∀ x ∈ xs, (f x).length = (g x).length) :
    xs.flatMap f = xs.flatMap g ↔ ∀ x ∈ xs, f x = g x := by
  constructor
  · intro h
    induction xs with
    | nil => simp
    | cons x xs ih =>
        rw [List.flatMap_cons, List.flatMap_cons] at h
        obtain ⟨hhead, htail⟩ := List.append_inj h (hlength x List.mem_cons_self)
        exact List.forall_mem_cons.mpr
          ⟨hhead, ih (fun y hy => hlength y (List.mem_cons_of_mem x hy)) htail⟩
  · exact List.flatMap_congr

/-! ## Chunks -/

/-- How many chunks of length `c` a list of length `n` has. -/
def chunkCount (c n : ℕ) : ℕ := (n + c - 1) / c

/-- The pieces of length `c` of `xs`, the last one possibly shorter. -/
def chunks (c : ℕ) (xs : List α) : List (List α) :=
  (List.range (chunkCount c xs.length)).map fun i => slice xs (i * c) c

theorem chunkCount_eq {c : ℕ} (hc : 0 < c) (n : ℕ) :
    chunkCount c n = n / c + if n % c = 0 then 0 else 1 := by
  have hdiv : n = c * (n / c) + n % c := (Nat.div_add_mod n c).symm
  have hmod : n % c < c := Nat.mod_lt n hc
  unfold chunkCount
  split_ifs with h
  · rw [h] at hdiv
    have : n + c - 1 = (c - 1) + c * (n / c) := by omega
    rw [this, Nat.add_mul_div_left _ _ hc, Nat.div_eq_of_lt (by omega), Nat.add_zero, Nat.zero_add]
  · have : n + c - 1 = (n % c - 1) + c * (n / c + 1) := by
      rw [Nat.mul_add, Nat.mul_one]
      omega
    rw [this, Nat.add_mul_div_left _ _ hc, Nat.div_eq_of_lt (by omega), Nat.zero_add]

theorem chunkCount_mul_add {c : ℕ} (hc : 0 < c) (k n : ℕ) :
    chunkCount c (k * c + n) = k + chunkCount c n := by
  rw [chunkCount_eq hc, chunkCount_eq hc, Nat.mul_comm k c, Nat.mul_add_div hc,
    Nat.mul_add_mod, Nat.add_assoc]

theorem length_chunks (c : ℕ) (xs : List α) : (chunks c xs).length = chunkCount c xs.length := by
  simp [chunks]

theorem chunks_append {c : ℕ} (hc : 0 < c) {xs : List α} (h : c ∣ xs.length) (ys : List α) :
    chunks c (xs ++ ys) = chunks c xs ++ chunks c ys := by
  obtain ⟨k, hk⟩ := h
  have hlen : xs.length = k * c := by rw [hk, Nat.mul_comm]
  have hcount : chunkCount c xs.length = k := by
    have := chunkCount_mul_add hc k 0
    simpa [hlen, chunkCount_eq hc 0] using this
  unfold chunks
  rw [hcount, List.length_append, hlen, chunkCount_mul_add hc, List.range_add, List.map_append,
    List.map_map]
  congr 1
  · refine List.map_congr_left fun i hi => slice_append_left xs ys ?_
    have hi' : i + 1 ≤ k := List.mem_range.mp hi
    calc i * c + c = (i + 1) * c := by ring
      _ ≤ k * c := Nat.mul_le_mul_right c hi'
      _ = xs.length := hlen.symm
  · apply List.map_congr_left
    intro j _
    have : (k + j) * c = xs.length + j * c := by rw [hlen, Nat.add_mul]
    simp only [Function.comp_apply, this, slice_append_right]

/-! ## Tilings -/

structure Span where
  start : ℕ
  length : ℕ
  deriving DecidableEq, Repr

def Span.stop (s : Span) : ℕ := s.start + s.length

def Span.Contains (s : Span) (p : ℕ) : Prop := s.start ≤ p ∧ p < s.stop

instance (s : Span) (p : ℕ) : Decidable (s.Contains p) :=
  inferInstanceAs (Decidable (_ ∧ _))

/-- The spans follow one another without a gap from `start` to `stop`. -/
def Tiles (start : ℕ) : List Span → ℕ → Prop
  | [], stop => start = stop
  | s :: rest, stop => s.start = start ∧ Tiles s.stop rest stop

theorem Tiles.le {start stop : ℕ} {spans : List Span} (h : Tiles start spans stop) :
    start ≤ stop := by
  induction spans generalizing start with
  | nil => exact Nat.le_of_eq h
  | cons s rest ih =>
      obtain ⟨rfl, htail⟩ := h
      exact (Nat.le_add_right _ _).trans (ih htail)

theorem Tiles.append {start middle stop : ℕ} {xs ys : List Span} (h : Tiles start xs middle)
    (h' : Tiles middle ys stop) : Tiles start (xs ++ ys) stop := by
  induction xs generalizing start with
  | nil => exact (show start = middle from h) ▸ h'
  | cons s rest ih => exact ⟨h.1, ih h.2⟩

theorem Tiles.start_le {start stop : ℕ} {spans : List Span} (h : Tiles start spans stop)
    {s : Span} (hs : s ∈ spans) : start ≤ s.start := by
  induction spans generalizing start with
  | nil => simp at hs
  | cons t rest ih =>
      obtain ⟨rfl, htail⟩ := h
      rcases List.mem_cons.mp hs with rfl | hs
      · exact le_refl _
      · exact (Nat.le_add_right _ _).trans (ih htail hs)

theorem Tiles.stop_le {start stop : ℕ} {spans : List Span} (h : Tiles start spans stop)
    {s : Span} (hs : s ∈ spans) : s.stop ≤ stop := by
  induction spans generalizing start with
  | nil => simp at hs
  | cons t rest ih =>
      obtain ⟨-, htail⟩ := h
      rcases List.mem_cons.mp hs with rfl | hs
      · exact htail.le
      · exact ih htail hs

theorem Tiles.last_stop {start stop : ℕ} {spans : List Span} {last : Span}
    (h : Tiles start (spans ++ [last]) stop) : last.stop = stop := by
  induction spans generalizing start with
  | nil => exact h.2
  | cons s rest ih => exact ih h.2

theorem Tiles.countP_contains {start stop : ℕ} {spans : List Span} (h : Tiles start spans stop)
    {p : ℕ} (hlow : start ≤ p) (hhigh : p < stop) :
    spans.countP (fun s => s.Contains p) = 1 := by
  induction spans generalizing start with
  | nil =>
      have : start = stop := h
      omega
  | cons s rest ih =>
      obtain ⟨rfl, htail⟩ := h
      by_cases hp : p < s.stop
      · have hrest : rest.countP (fun t => t.Contains p) = 0 := by
          apply List.countP_eq_zero.mpr
          intro t ht
          have hle := htail.start_le ht
          have hout : ¬ t.Contains p := fun hin => by
            have := hin.1
            omega
          simpa using hout
        have hs : s.Contains p := ⟨hlow, hp⟩
        simp [hrest, hs]
      · have hs : ¬ s.Contains p := fun hs => hp hs.2
        simp [hs, ih htail (Nat.le_of_not_lt hp)]

theorem Tiles.flatMap_slice {start stop : ℕ} {spans : List Span} (h : Tiles start spans stop)
    (xs : List α) :
    spans.flatMap (fun s => slice xs s.start s.length) = slice xs start (stop - start) := by
  induction spans generalizing start with
  | nil =>
      have : start = stop := h
      simp [this]
  | cons s rest ih =>
      obtain ⟨rfl, htail⟩ := h
      have hle := htail.le
      rw [List.flatMap_cons, ih htail]
      have hsplit : stop - s.start = s.length + (stop - s.stop) := by
        simp only [Span.stop] at hle ⊢
        omega
      rw [hsplit, slice_add]
      rfl

/-- Where every span but the last is a multiple of `c`, the chunks of the
slices are the chunks of the slice that the tiling covers. -/
theorem Tiles.flatMap_chunks {c : ℕ} (hc : 0 < c) {start stop : ℕ} {spans : List Span}
    {last : Span} (h : Tiles start (spans ++ [last]) stop) (hdvd : ∀ s ∈ spans, c ∣ s.length)
    {xs : List α} (hstop : stop ≤ xs.length) :
    (spans ++ [last]).flatMap (fun s => chunks c (slice xs s.start s.length)) =
      chunks c (slice xs start (stop - start)) := by
  induction spans generalizing start with
  | nil =>
      obtain ⟨rfl, hlast⟩ := h
      have hlast : last.stop = stop := hlast
      simp only [List.nil_append, List.flatMap_cons, List.flatMap_nil, List.append_nil]
      congr 2
      simp only [Span.stop] at hlast
      omega
  | cons s rest ih =>
      obtain ⟨rfl, htail⟩ := h
      have hle := htail.le
      have hsplit : stop - s.start = s.length + (stop - s.stop) := by
        simp only [Span.stop] at hle ⊢
        omega
      have hlen : (slice xs s.start s.length).length = s.length := by
        apply length_slice_of_le
        simp only [Span.stop] at hle
        omega
      rw [List.cons_append, List.flatMap_cons,
        ih htail fun t ht => hdvd t (List.mem_cons_of_mem _ ht), hsplit, slice_add,
        chunks_append hc (hlen.symm ▸ hdvd s List.mem_cons_self)]
      rfl

/-! ## Spans with one place between them -/

/-- Of spans of one length, each followed by one place that is in none of
them, at most one has a given place. -/
theorem countP_range_contains (length count p : ℕ) :
    (List.range count).countP (fun i => (⟨i * (length + 1), length⟩ : Span).Contains p) =
      if p / (length + 1) < count ∧ p % (length + 1) < length then 1 else 0 := by
  have hp : p / (length + 1) * (length + 1) + p % (length + 1) = p := Nat.div_add_mod' p _
  have hcontains : ∀ i, (⟨i * (length + 1), length⟩ : Span).Contains p ↔
      i = p / (length + 1) ∧ p % (length + 1) < length := by
    intro i
    constructor
    · rintro ⟨hstart, hstop⟩
      simp only [Span.stop] at hstart hstop
      have hi : p / (length + 1) = i := by
        apply Nat.div_eq_of_lt_le hstart
        rw [Nat.add_mul, Nat.one_mul]
        omega
      rw [hi] at hp
      exact ⟨hi.symm, by omega⟩
    · rintro ⟨rfl, hlt⟩
      constructor
      · exact Nat.div_mul_le_self _ _
      · simp only [Span.stop]
        omega
  simp only [hcontains]
  by_cases hlength : p % (length + 1) < length
  · have hcount : (List.range count).countP (fun i => i = p / (length + 1)) =
        (List.range count).count (p / (length + 1)) := by
      apply List.countP_congr
      simp
    simp only [hlength, and_true, hcount]
    rw [List.nodup_range.count]
    simp only [List.mem_range]
  · simp [hlength]

/-- There are as many places left out as spans. -/
theorem card_range_last {length count stop : ℕ} (h : count * (length + 1) ≤ stop) :
    ((Finset.range stop).filter fun p =>
      p / (length + 1) < count ∧ p % (length + 1) = length).card = count := by
  have hlast : ∀ i p, p / (length + 1) = i ∧ p % (length + 1) = length ↔
      length + (length + 1) * i = p := by
    intro i p
    rw [Nat.div_mod_unique (Nat.succ_pos length)]
    exact and_iff_left (Nat.lt_succ_self length)
  have himage : ((Finset.range stop).filter fun p =>
      p / (length + 1) < count ∧ p % (length + 1) = length) =
        (Finset.range count).image fun i => length + (length + 1) * i := by
    ext p
    simp only [Finset.mem_filter, Finset.mem_range, Finset.mem_image]
    constructor
    · rintro ⟨-, hlt, hmod⟩
      exact ⟨_, hlt, (hlast _ p).mp ⟨rfl, hmod⟩⟩
    · rintro ⟨i, hi, hp⟩
      obtain ⟨rfl, hmod⟩ := (hlast i p).mpr hp
      refine ⟨?_, hi, hmod⟩
      have hle : (length + 1) * (p / (length + 1) + 1) ≤ (length + 1) * count :=
        Nat.mul_le_mul_left _ hi
      rw [Nat.mul_comm _ count, Nat.mul_add] at hle
      omega
  rw [himage, Finset.card_image_of_injective, Finset.card_range]
  intro i j hij
  exact Nat.eq_of_mul_eq_mul_left (Nat.succ_pos length) (Nat.add_left_cancel hij)

end VeeamSignature.Slices
