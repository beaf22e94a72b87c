import FieldWire.Proofs.PathSet
import FieldWire.Proofs.Wire.Writing

/-!
# The framing of path sets

The bytes of a path set are those of its paths with a separator between any two of them and the end
byte behind the last (`PathSet.bytes_eq_framed`). A path set is framed in this way only: what is read
from bytes is written as the bytes that were taken.

Reading is told by its runs. A run of the reader has a path for every delimiter and a step for every
tag that it met (`PathSet.PathsRun`), and it meets no delimiter but at the end of a path. That a byte
inside of a step is a delimiter does no harm, because a step is taken as a whole from its tag on; so
the tag that was read is the one that the step is written with (`PathSet.tag_of_read`).
-/

namespace FieldWire.PathSet

variable {c d : Cursor}

/-! ### Written paths -/

/-- The bytes of the paths with separators between them, and the end byte. -/
def framed (paths : PathSet) : List UInt8 :=
  List.intercalate [pathSeparator] (paths.map stepBytes) ++ [pathSetEnd]

theorem bytesFrom_eq_framed (path : Path) (rest : List Path) :
    bytesFrom path rest = framed (path :: rest) := by
  induction rest generalizing path with
  | nil => simp [bytesFrom, framed, List.intercalate]
  | cons next rest ih =>
    rw [bytesFrom, ih]
    simp [framed, List.intercalate]

/-- Paths are written in their frame. -/
theorem bytes_eq_framed {paths : PathSet} (h : paths ≠ []) : bytes paths = .ok (framed paths) := by
  cases paths with
  | nil => exact absurd rfl h
  | cons path rest => rw [bytes, bytesFrom_eq_framed]

/-! ### Runs of the reader -/

/-- The reader of steps goes from one cursor to the other, where a delimiter comes next. Every step
that it takes stands with the byte that was its tag. -/
inductive StepsRun : Cursor → List (UInt8 × PathStep) → Cursor → Prop
  /-- The path ends. -/
  | stop {c : Cursor} {next : UInt8} (hnext : c.rest.head? = some next)
    (hend : next = pathSeparator ∨ next = pathSetEnd) : StepsRun c [] c
  /-- A step is taken. -/
  | step {c d e : Cursor} {tag : UInt8} {step : PathStep} {run : List (UInt8 × PathStep)}
    (htag : c.rest.head? = some tag) (hgoes : tag ≠ pathSeparator ∧ tag ≠ pathSetEnd)
    (hstep : PathStep.read c = .ok step d) (hrest : StepsRun d run e) :
    StepsRun c ((tag, step) :: run) e

/-- The reader of paths goes from one cursor to the other, over a separator behind each path but the
last, and over the end byte behind that. -/
inductive PathsRun : Cursor → List (List (UInt8 × PathStep)) → Cursor → Prop
  /-- The last path is taken. -/
  | last {c d e : Cursor} {path : List (UInt8 × PathStep)} (hpath : StepsRun c path d)
    (hend : Reader.byte d = .ok pathSetEnd e) : PathsRun c [path] e
  /-- A path is taken that is not the last. -/
  | next {c d e f : Cursor} {path : List (UInt8 × PathStep)}
    {run : List (List (UInt8 × PathStep))} (hpath : StepsRun c path d)
    (hseparator : Reader.byte d = .ok pathSeparator e) (hrest : PathsRun e run f) :
    PathsRun c (path :: run) f

/-- Behind the steps of a path a delimiter comes next. -/
theorem StepsRun.delimiter {run : List (UInt8 × PathStep)} (h : StepsRun c run d) :
    ∃ next, d.rest.head? = some next ∧ (next = pathSeparator ∨ next = pathSetEnd) := by
  induction h with
  | stop hnext hend => exact ⟨_, hnext, hend⟩
  | step _ _ _ _ ih => exact ih

/-- Steps are taken in a run. -/
theorem exists_stepsRun {fuel : Nat} {taken path : Path} (h : readSteps fuel taken c = .ok path d) :
    ∃ run, StepsRun c run d ∧ path = taken.reverse ++ run.map Prod.snd := by
  induction fuel generalizing taken c with
  | zero => cases h
  | succ fuel ih =>
    rw [readSteps] at h
    obtain ⟨next, e, hpeek, hturn⟩ := Reader.bind_eq_ok_iff.1 h
    obtain ⟨rfl, hnext⟩ := (Reader.peeks_peek.mapError _ _ _ _).1 hpeek
    split at hturn
    · next hend =>
      cases hturn
      exact ⟨[], .stop hnext hend, (List.append_nil _).symm⟩
    · next hgoes =>
      obtain ⟨step, f, hstep, hloop⟩ := Reader.bind_eq_ok_iff.1 hturn
      obtain ⟨run, hrun, rfl⟩ := ih hloop
      refine ⟨(next, step) :: run, .step hnext (not_or.1 hgoes) hstep hrun, ?_⟩
      rw [List.reverse_cons, List.append_assoc]
      rfl

/-- The byte reader takes the byte that comes next. -/
theorem head_of_byte {b : UInt8} (h : Reader.byte c = .ok b d) : c.rest.head? = some b := by
  obtain ⟨taken, hrest, -, -, rfl⟩ := Reader.Yields.byte c b d rfl h
  rw [hrest]
  rfl

/-- Paths are taken in a run. -/
theorem exists_pathsRun {fuel : Nat} {taken : List Path} {paths : PathSet}
    (h : readPaths fuel taken c = .ok paths d) :
    ∃ run, PathsRun c run d ∧ paths = taken.reverse ++ run.map (List.map Prod.snd) := by
  induction fuel generalizing taken c with
  | zero => cases h
  | succ fuel ih =>
    rw [readPaths] at h
    obtain ⟨path, e, hpath, hturn⟩ := Reader.bind_eq_ok_iff.1 h
    obtain ⟨steps, hsteps, rfl⟩ := exists_stepsRun hpath
    split at hturn
    · cases hturn
    · obtain ⟨delimiter, f, hbyte, hloop⟩ := Reader.bind_eq_ok_iff.1 hturn
      split at hloop
      · next hend =>
        cases hloop
        refine ⟨[steps], .last hsteps (hend ▸ hbyte), ?_⟩
        rw [List.reverse_cons]
        rfl
      · next hother =>
        -- the steps ended at a delimiter, and it is not the end byte
        obtain ⟨next, hnext, hdelimiter⟩ := hsteps.delimiter
        obtain rfl := Option.some.inj ((head_of_byte hbyte).symm.trans hnext)
        obtain rfl := hdelimiter.resolve_right hother
        obtain ⟨run, hrun, rfl⟩ := ih hloop
        refine ⟨steps :: run, .next hsteps hbyte hrun, ?_⟩
        rw [List.reverse_cons, List.append_assoc]
        rfl

/-! ### Tags -/

/-- The byte that comes next is the tag of the step that is read. -/
theorem tag_of_read {step : PathStep} (h : PathStep.read c = .ok step d) :
    c.rest.head? = some step.tag := by
  obtain ⟨taken, hrest, -, -, rfl, -⟩ := PathStep.yields_read c step d rfl h
  rw [hrest]
  rfl

theorem StepsRun.tag_eq {run : List (UInt8 × PathStep)} (h : StepsRun c run d) :
    ∀ taken ∈ run, taken.1 = taken.2.tag := by
  induction h with
  | stop => exact nofun
  | step htag _ hstep _ ih =>
    refine List.forall_mem_cons.2 ⟨?_, ih⟩
    exact Option.some.inj (htag.symm.trans (tag_of_read hstep))

/-- Every step of a run has the tag that was read for it. -/
theorem PathsRun.tag_eq {run : List (List (UInt8 × PathStep))} (h : PathsRun c run d) :
    ∀ path ∈ run, ∀ taken ∈ path, taken.1 = taken.2.tag := by
  induction h with
  | last hpath _ => exact List.forall_mem_singleton.2 hpath.tag_eq
  | next hpath _ _ ih => exact List.forall_mem_cons.2 ⟨hpath.tag_eq, ih⟩

/-! ### Both directions -/

/-- **Framing is exact.** A proper path set is written in its frame and read from it, whatever
follows. What is read from bytes is proper, was taken in a run in which each step has the tag that
was read for it, and is written as the bytes that were taken. -/
theorem framing_exact :
    (∀ paths : PathSet, paths.IsProper →
      (Value.pathSet paths).toBytes = .ok (framed paths) ∧
      ∀ depth, PathSet.read.Reads depth (framed paths) paths) ∧
    ∀ (c d : Cursor) (paths : PathSet), PathSet.read c = .ok paths d →
      paths.IsProper ∧
      (∃ run, PathsRun c run d ∧ paths = run.map (List.map Prod.snd) ∧
        ∀ path ∈ run, ∀ taken ∈ path, taken.1 = taken.2.tag) ∧
      (Value.pathSet paths).toBytes = .ok (framed paths) ∧
      c.rest = framed paths ++ d.rest ∧ d.position = c.position + (framed paths).length := by
  have hwritten : ∀ paths : PathSet, paths.IsProper →
      (Value.pathSet paths).toBytes = .ok (framed paths) := by
    intro paths hproper
    rw [Value.toBytes, Value.write, Writer.run_appendOf, bytes_eq_framed hproper.1]
  refine ⟨fun paths hproper => ⟨hwritten paths hproper, fun depth => ?_⟩, fun c d paths h => ?_⟩
  · exact reads_read hproper (bytes_eq_framed hproper.1)
  · obtain ⟨taken, hrest, hposition, -, hbytes, hproper⟩ := yields_read c paths d rfl h
    rw [bytes_eq_framed hproper.1] at hbytes
    cases hbytes
    obtain ⟨run, hrun, hpaths⟩ := exists_pathsRun h
    exact ⟨hproper, ⟨run, hrun, hpaths, hrun.tag_eq⟩, hwritten paths hproper, hrest, hposition⟩

/-- Two paths, of which the first is through an account that is all separators. -/
def twoPaths : PathSet :=
  [[⟨some ⟨List.replicate 20 pathSeparator, rfl⟩, none, none⟩], [⟨none, some .native, none⟩]]

theorem framing_exact_twoPaths : twoPaths.IsProper ∧
    framed twoPaths = 0x01 :: List.replicate 21 0xFF ++ 0x10 :: List.replicate 21 0x00 ∧
    PathSet.read ⟨framed twoPaths ++ [objectEnd], 0, 0⟩ = .ok twoPaths ⟨[objectEnd], 44, 0⟩ ∧
    ∃ run, PathsRun ⟨framed twoPaths ++ [objectEnd], 0, 0⟩ run ⟨[objectEnd], 44, 0⟩ ∧
      twoPaths = run.map (List.map Prod.snd) ∧
        ∀ path ∈ run, ∀ taken ∈ path, taken.1 = taken.2.tag := by
  have hproper : twoPaths.IsProper := by decide
  obtain ⟨hwrite, hread⟩ := framing_exact
  have hback := (hwrite twoPaths hproper).2 0 [objectEnd] 0
  exact ⟨hproper, rfl, hback, (hread _ _ _ hback).2.1⟩

end FieldWire.PathSet
