import Bunzip.Proofs.Format.RunLength

/-!
# Runs may be cut short

A coded run stands for up to 259 bytes, but no writer has to use all of that. One that cuts its runs
at a smaller length, down to four, is undone as well, and so is one that cuts them wherever it likes,
as long as only the last piece of a run has fewer than four bytes.

What makes this work is that every piece before the last ends with a count. After a count the decoder
has forgotten about the run, so the next piece of the same byte begins like any other run. After the
last piece it may remember up to three bytes, but then the next byte is a different one.
-/

namespace Bunzip

namespace Format

/-! ## Runs -/

/-- The runs of a byte string, each as long as possible: the byte, and how many there are of it. -/
def runsOf (bytes : List UInt8) : List (UInt8 × Nat) :=
  (bytes.splitBy (· == ·)).map fun run => (run.headD 0, run.length)

theorem eq_replicate_of_mem_splitBy {bytes run : List UInt8} (h : run ∈ bytes.splitBy (· == ·)) :
    run = List.replicate run.length (run.headD 0) := by
  have hequal : run.IsChain (· = ·) :=
    (List.isChain_of_mem_splitBy h).imp fun _ _ heq => eq_of_beq heq
  cases run with
  | nil => rfl
  | cons byte rest =>
    obtain hrest := List.isChain_cons_eq_iff_eq_replicate.mp hequal
    rw [List.headD_cons, List.length_cons, List.replicate_succ, ← hrest]

/-- The runs of a byte string, written out, are the byte string. -/
theorem flatMap_runsOf (bytes : List UInt8) :
    ((runsOf bytes).flatMap fun run => List.replicate run.2 run.1) = bytes := by
  rw [runsOf, List.flatMap_map]
  calc (bytes.splitBy (· == ·)).flatMap (fun run => List.replicate run.length (run.headD 0))
      = (bytes.splitBy (· == ·)).flatMap id :=
        List.flatMap_congr fun run hmem => (eq_replicate_of_mem_splitBy hmem).symm
    _ = bytes := by rw [List.flatMap_id, List.flatten_splitBy]

theorem pos_of_mem_runsOf {bytes : List UInt8} {run : UInt8 × Nat} (h : run ∈ runsOf bytes) :
    0 < run.2 := by
  obtain ⟨copies, hmem, rfl⟩ := List.mem_map.mp h
  exact List.length_pos_iff.mpr (List.ne_nil_of_mem_splitBy hmem)

/-- A run is followed by a run of another byte. -/
theorem maximal_runsOf (bytes : List UInt8) :
    (runsOf bytes).IsChain fun run next => run.1 ≠ next.1 := by
  rw [runsOf, List.isChain_map]
  refine (List.isChain_getLast_head_splitBy (· == ·) bytes).imp_of_mem_imp ?_
  rintro run next hrun _ ⟨hrunNil, hnextNil, hdiffer⟩
  obtain ⟨_, hcopies⟩ := List.eq_replicate_iff.mp (eq_replicate_of_mem_splitBy hrun)
  have hlast : run.getLast hrunNil = run.headD 0 := hcopies _ (List.getLast_mem hrunNil)
  have hhead : next.head hnextNil = next.headD 0 := by
    rw [List.headD_eq_head?_getD, List.head?_eq_some_head hnextNil, Option.getD_some]
  rw [hlast, hhead] at hdiffer
  exact ne_of_beq_false hdiffer

/-! ## Pieces -/

/-- The lengths of the pieces of a run of `n` bytes: `cap` as often as it fits, and then the rest. -/
def piecesUpTo (cap n : Nat) : List Nat :=
  List.replicate (n / cap) cap ++ if n % cap = 0 then [] else [n % cap]

/-- A run of so many bytes is cut into pieces of at most `cap`, and only the last one is short. -/
inductive CutsRun (cap : Nat) : (n : Nat) → (pieces : List Nat) → Prop
  | last {n : Nat} (pos : 0 < n) (most : n ≤ cap) : CutsRun cap n [n]
  | cons {piece n : Nat} {pieces : List Nat} (least : 4 ≤ piece) (most : piece ≤ cap)
      (rest : CutsRun cap n pieces) : CutsRun cap (piece + n) (piece :: pieces)

/-- A run that is coded piece by piece. -/
def encodePieces (byte : UInt8) (pieces : List Nat) : List UInt8 := pieces.flatMap (encodeRun byte)

/-- Codes the runs of a byte string in pieces of at most `cap` bytes, each as long as possible. -/
def encodeRunsUpTo (cap : Nat) (bytes : List UInt8) : List UInt8 :=
  (runsOf bytes).flatMap fun run => encodePieces run.1 (piecesUpTo cap run.2)

/-- Coded bytes for runs, each of them cut in some way. -/
inductive WritesRuns (cap : Nat) : (runs : List (UInt8 × Nat)) → (coded : List UInt8) → Prop
  | nil : WritesRuns cap [] []
  | cons {byte : UInt8} {n : Nat} {pieces : List Nat} {runs : List (UInt8 × Nat)}
      {coded : List UInt8} (cut : CutsRun cap n pieces) (rest : WritesRuns cap runs coded) :
      WritesRuns cap ((byte, n) :: runs) (encodePieces byte pieces ++ coded)

theorem piecesUpTo_of_lt {cap n : Nat} (pos : 0 < n) (less : n < cap) : piecesUpTo cap n = [n] := by
  rw [piecesUpTo, Nat.div_eq_of_lt less, Nat.mod_eq_of_lt less, if_neg (Nat.ne_of_gt pos)]
  rfl

theorem piecesUpTo_self {cap : Nat} (pos : 0 < cap) : piecesUpTo cap cap = [cap] := by
  rw [piecesUpTo, Nat.div_self pos, Nat.mod_self, if_pos rfl]
  rfl

theorem piecesUpTo_add {cap : Nat} (pos : 0 < cap) (n : Nat) :
    piecesUpTo cap (cap + n) = cap :: piecesUpTo cap n := by
  rw [piecesUpTo, Nat.add_div_left n pos, Nat.add_mod_left, List.replicate_succ, List.cons_append,
    ← piecesUpTo]

/-- Making the pieces as long as possible is one way of cutting a run. -/
theorem cutsRun_piecesUpTo {cap n : Nat} (least : 4 ≤ cap) (pos : 0 < n) :
    CutsRun cap n (piecesUpTo cap n) := by
  -- on the length of the run: a piece of `cap` bytes is taken off while there is more
  induction n using Nat.strongRecOn with
  | ind n ih =>
    rcases Nat.lt_trichotomy n cap with hless | rfl | hmore
    · rw [piecesUpTo_of_lt pos hless]
      exact .last pos (Nat.le_of_lt hless)
    · rw [piecesUpTo_self pos]
      exact .last pos (Nat.le_refl n)
    · obtain ⟨m, rfl⟩ : ∃ m, n = cap + m := ⟨n - cap, by omega⟩
      rw [piecesUpTo_add (by omega)]
      exact .cons least (Nat.le_refl cap) (ih m (by omega) (by omega))

theorem writesRuns_encodeRunsUpTo {cap : Nat} (least : 4 ≤ cap) {runs : List (UInt8 × Nat)}
    (pos : ∀ run ∈ runs, 0 < run.2) :
    WritesRuns cap runs (runs.flatMap fun run => encodePieces run.1 (piecesUpTo cap run.2)) := by
  induction runs with
  | nil => exact .nil
  | cons run runs ih =>
    obtain ⟨hfirst, hothers⟩ := List.forall_mem_cons.mp pos
    exact .cons (cutsRun_piecesUpTo least hfirst) (ih hothers)

end Format

open Format

namespace RunLength

/-- After a run, a run of another byte can start. -/
theorem fresh_afterRun {byte other : UInt8} (hother : other ≠ byte) (n : Nat) :
    (afterRun byte n).Fresh other := by
  unfold afterRun Fresh
  by_cases hfour : 4 ≤ n
  · rw [if_pos hfour]
    exact ⟨Nat.zero_lt_succ 3, .inl rfl⟩
  · rw [if_neg hfour]
    exact ⟨by simp only; omega, .inr hother.symm⟩

/-- After a count, any run can start. -/
theorem fresh_afterCount {n : Nat} (hfour : 4 ≤ n) (byte other : UInt8) :
    (afterRun byte n).Fresh other := by
  unfold afterRun Fresh
  rw [if_pos hfour]
  exact ⟨Nat.zero_lt_succ 3, .inl rfl⟩

/-- A run is unrolled from its pieces. Only a run of another byte can start right after it. -/
theorem unroll_encodePieces {cap n : Nat} (most : cap ≤ longestRun) {pieces : List Nat}
    (h : CutsRun cap n pieces) {runs : RunLength} {byte : UInt8} (hfresh : runs.Fresh byte) :
    ∃ after : RunLength, (∀ other, other ≠ byte → after.Fresh other)
      ∧ ∀ rest, unroll runs (encodePieces byte pieces ++ rest)
          = List.replicate n byte ++ unroll after rest := by
  -- on the pieces; all but the last end with a count, so that the next one can start
  induction h generalizing runs with
  | @last n pos short =>
    refine ⟨afterRun byte n, fun other hother => fresh_afterRun hother n, ?_⟩
    intro rest
    rw [encodePieces, List.flatMap_singleton]
    exact unroll_encodeRun hfresh pos (Nat.le_trans short most) rest
  | @cons piece n pieces least short _ ih =>
    obtain ⟨after, hafter, hrest⟩ := ih (fresh_afterCount least byte byte)
    refine ⟨after, hafter, ?_⟩
    intro rest
    rw [encodePieces, List.flatMap_cons, List.append_assoc,
      unroll_encodeRun hfresh (by omega) (Nat.le_trans short most), ← encodePieces, hrest,
      List.replicate_add, List.append_assoc]

/-- Runs of different bytes in a row are unrolled one after the other. -/
theorem unroll_writesRuns {cap : Nat} (most : cap ≤ longestRun) {written : List (UInt8 × Nat)}
    {coded : List UInt8} (h : WritesRuns cap written coded)
    (hmaximal : written.IsChain fun run next => run.1 ≠ next.1) {runs : RunLength}
    (hfresh : ∀ run ∈ written.head?, runs.Fresh run.1) :
    unroll runs coded = written.flatMap fun run => List.replicate run.2 run.1 := by
  induction h generalizing runs with
  | nil => rfl
  | @cons byte n pieces others coded cut _ ih =>
    obtain ⟨hnext, hothers⟩ := List.isChain_cons.mp hmaximal
    obtain ⟨after, hafter, hrun⟩ := unroll_encodePieces most cut (hfresh _ rfl)
    rw [hrun coded, ih hothers fun next hmem => hafter next.1 (hnext next hmem).symm,
      List.flatMap_cons]

/--
**Unrolling undoes every coding of runs.** It does not matter at which length from four to 259 a
writer cuts its runs, nor whether it makes the pieces as long as possible.
-/
theorem unroll_encodeRunsUpTo {cap : Nat} (least : 4 ≤ cap) (most : cap ≤ longestRun)
    (bytes : List UInt8) :
    unroll start (encodeRunsUpTo cap bytes) = bytes
      ∧ ∀ coded, WritesRuns cap (runsOf bytes) coded → unroll start coded = bytes := by
  have hall : ∀ coded, WritesRuns cap (runsOf bytes) coded → unroll start coded = bytes := by
    intro coded hwritten
    rw [unroll_writesRuns most hwritten (maximal_runsOf bytes) fun _ _ => ⟨by decide, .inl rfl⟩,
      flatMap_runsOf]
  exact ⟨hall _ (writesRuns_encodeRunsUpTo least fun _ => pos_of_mem_runsOf), hall⟩

/-- A run of eleven bytes in pieces of five, five and one, and in pieces of four, four and three. -/
theorem unroll_encodeRunsUpTo_eleven :
    4 ≤ 5 ∧ 5 ≤ longestRun
      ∧ encodeRunsUpTo 5 (List.replicate 11 97 ++ [98])
          = [97, 97, 97, 97, 1, 97, 97, 97, 97, 1, 97, 98]
      ∧ unroll start (encodeRunsUpTo 5 (List.replicate 11 97 ++ [98]))
          = List.replicate 11 97 ++ [98]
      ∧ WritesRuns 5 (runsOf (List.replicate 11 97 ++ [98]))
          [97, 97, 97, 97, 0, 97, 97, 97, 97, 0, 97, 97, 97, 98]
      ∧ unroll start [97, 97, 97, 97, 0, 97, 97, 97, 97, 0, 97, 97, 97, 98]
          = List.replicate 11 97 ++ [98] := by
  have hruns : runsOf (List.replicate 11 97 ++ [98]) = [(97, 4 + (4 + 3)), (98, 1)] := by decide
  have hthree : CutsRun 5 3 [3] := .last (by decide) (by decide)
  have hone : CutsRun 5 1 [1] := .last (by decide) (by decide)
  have heleven : CutsRun 5 (4 + (4 + 3)) [4, 4, 3] :=
    .cons (by decide) (by decide) (.cons (by decide) (by decide) hthree)
  have hwritten : WritesRuns 5 (runsOf (List.replicate 11 97 ++ [98]))
      [97, 97, 97, 97, 0, 97, 97, 97, 97, 0, 97, 97, 97, 98] := by
    rw [hruns]
    exact .cons heleven (.cons hone .nil)
  obtain ⟨hlongest, hall⟩ := unroll_encodeRunsUpTo (by decide : 4 ≤ 5) (by decide)
    (List.replicate 11 97 ++ [98])
  exact ⟨by decide, by decide, by decide, hlongest, hwritten, hall _ hwritten⟩

/-- A short piece before another one of its run would be taken for a part of it. -/
example : unroll start (encodePieces 97 [1, 4]) = List.replicate 101 97 ++ [0] := by decide

end RunLength

end Bunzip
