import Bunzip.RunLength
import Mathlib

/-!
# Runs are unrolled as they were coded

Runs are cut at 259 equal bytes, so a run may be followed by one of the same byte. Unrolling tells
the two apart because it forgets about a run once its count has been read.
-/

namespace Bunzip

namespace Format

/-- The coded form of a run: four bytes and a count of the others, or fewer than four bytes. -/
def encodeRun (byte : UInt8) (n : Nat) : List UInt8 :=
  if 4 ≤ n then List.replicate 4 byte ++ [UInt8.ofNat (n - 4)] else List.replicate n byte

/-- The longest run that can be coded. -/
def longestRun : Nat := 259

/-- Codes the runs of a byte string that continues a run of `n` bytes. -/
def encodeRunsFrom (byte : UInt8) (n : Nat) : List UInt8 → List UInt8
  | [] => encodeRun byte n
  | next :: rest =>
    if next = byte ∧ n < longestRun then encodeRunsFrom byte (n + 1) rest
    else encodeRun byte n ++ encodeRunsFrom next 1 rest

/-- Codes the runs of a byte string, each as long as possible. -/
def encodeRuns : List UInt8 → List UInt8
  | [] => []
  | byte :: rest => encodeRunsFrom byte 1 rest

end Format

open Format

namespace RunLength

/-- The bytes that coded bytes stand for. -/
def unroll : RunLength → List UInt8 → List UInt8
  | _, [] => []
  | runs, byte :: bytes =>
    match runs.push byte with
    | (.literal byte, runs) => byte :: unroll runs bytes
    | (.repeated byte count, runs) => List.replicate count byte ++ unroll runs bytes

/-- A run of this byte can start: none is under way, or one of another byte. -/
def Fresh (runs : RunLength) (byte : UInt8) : Prop :=
  runs.run < 4 ∧ (runs.run = 0 ∨ runs.last ≠ byte)

theorem unroll_first {runs : RunLength} {byte : UInt8} (h : runs.Fresh byte) (rest : List UInt8) :
    unroll runs (byte :: rest) = byte :: unroll ⟨byte, 1⟩ rest := by
  obtain ⟨hshort, hother⟩ := h
  have hnext : ¬(0 < runs.run ∧ byte = runs.last) := by
    rintro ⟨hpos, rfl⟩
    rcases hother with hzero | hne
    · omega
    · exact hne rfl
  rw [unroll, push, if_neg (by omega), if_neg hnext]

theorem unroll_next {n : Nat} (hpos : 0 < n) (hshort : n < 4) (byte : UInt8) (rest : List UInt8) :
    unroll ⟨byte, n⟩ (byte :: rest) = byte :: unroll ⟨byte, n + 1⟩ rest := by
  rw [unroll, push, if_neg (by simp only; omega), if_pos ⟨hpos, rfl⟩]

theorem unroll_count (byte count : UInt8) (rest : List UInt8) :
    unroll ⟨byte, 4⟩ (count :: rest)
      = List.replicate count.toNat byte ++ unroll ⟨byte, 0⟩ rest := by
  rw [unroll, push, if_pos rfl]

theorem unroll_replicate (byte : UInt8) {n k : Nat} (hpos : 0 < n) (hshort : n + k ≤ 4)
    (rest : List UInt8) :
    unroll ⟨byte, n⟩ (List.replicate k byte ++ rest)
      = List.replicate k byte ++ unroll ⟨byte, n + k⟩ rest := by
  induction k generalizing n with
  | zero => rfl
  | succ k ih =>
    rw [List.replicate_succ, List.cons_append, unroll_next hpos (by omega), ih (by omega) (by omega),
      List.cons_append, Nat.add_assoc, Nat.add_comm 1 k]

/-- The run that is under way after a coded run. -/
def afterRun (byte : UInt8) (n : Nat) : RunLength := ⟨byte, if 4 ≤ n then 0 else n⟩

theorem unroll_encodeRun {runs : RunLength} {byte : UInt8} (h : runs.Fresh byte) {n : Nat}
    (hpos : 0 < n) (hlong : n ≤ longestRun) (rest : List UInt8) :
    unroll runs (encodeRun byte n ++ rest)
      = List.replicate n byte ++ unroll (afterRun byte n) rest := by
  have hstart : ∀ (k : Nat) (more : List UInt8), 0 < k → k ≤ 4 →
      unroll runs (List.replicate k byte ++ more)
        = List.replicate k byte ++ unroll ⟨byte, k⟩ more := by
    intro k more hk hfour
    obtain ⟨k, rfl⟩ : ∃ m, k = m + 1 := ⟨k - 1, by omega⟩
    rw [List.replicate_succ, List.cons_append, unroll_first h,
      unroll_replicate byte (by decide) (by omega), List.cons_append, Nat.add_comm 1 k]
  by_cases hfour : 4 ≤ n
  · simp only [longestRun] at hlong
    have hcount : (UInt8.ofNat (n - 4)).toNat = n - 4 := by
      rw [UInt8.toNat_ofNat']
      omega
    rw [encodeRun, if_pos hfour, List.append_assoc, hstart 4 _ (by decide) (by decide),
      List.singleton_append, unroll_count, hcount, ← List.append_assoc, ← List.replicate_add,
      show 4 + (n - 4) = n by omega, afterRun, if_pos hfour]
  · rw [encodeRun, if_neg hfour, hstart n _ hpos (by omega), afterRun, if_neg hfour]

theorem unroll_encodeRunsFrom {runs : RunLength} {byte : UInt8} (h : runs.Fresh byte) {n : Nat}
    (hpos : 0 < n) (hlong : n ≤ longestRun) (rest : List UInt8) :
    unroll runs (encodeRunsFrom byte n rest) = List.replicate n byte ++ rest := by
  induction rest generalizing runs byte n with
  | nil =>
    have hrun := unroll_encodeRun h hpos hlong []
    rwa [List.append_nil] at hrun
  | cons next rest ih =>
    rw [encodeRunsFrom]
    by_cases hsame : next = byte ∧ n < longestRun
    · rw [if_pos hsame, ih h (by omega) (by omega), List.replicate_succ', List.append_assoc,
        hsame.1]
      rfl
    · -- a run of the same byte only follows one that had to be cut
      have hfresh : (afterRun byte n).Fresh next := by
        simp only [longestRun] at hsame hlong
        unfold afterRun Fresh
        by_cases hfour : 4 ≤ n
        · rw [if_pos hfour]
          exact ⟨Nat.zero_lt_succ 3, .inl rfl⟩
        · rw [if_neg hfour]
          exact ⟨by simp only; omega, .inr fun heq => hsame ⟨heq.symm, by omega⟩⟩
      rw [if_neg hsame, unroll_encodeRun h hpos hlong, ih hfresh (by decide) (by decide)]
      rfl

/-- **Unrolling undoes the coding of runs.** -/
theorem unroll_encodeRuns (bytes : List UInt8) : unroll start (encodeRuns bytes) = bytes := by
  cases bytes with
  | nil => rfl
  | cons byte rest =>
    exact unroll_encodeRunsFrom ⟨by decide, .inl rfl⟩ (by decide) (by decide) rest

example : encodeRuns [7, 7, 7, 7, 7, 8] = [7, 7, 7, 7, 1, 8] := by decide

end RunLength

end Bunzip
