import FieldWire.Proofs.PathSet
import FieldWire.Proofs.Registry.Regular
import FieldWire.Proofs.Value.Steps
import FieldWire.Proofs.Wire.Loops

/-!
# The loops of reading values

Four loops read what has no fixed length: the steps of a path, the paths of a path set, the fields of
an object and the elements of an array. Each is given here by its turn, and no number of turns is
fixed: a turn for a path runs the loop of steps, one for an array runs the loop of fields, and one
for an object reads a value, which can be an object or an array again. The readers of the wire
format, which recurse on a number, are the loops of these turns (`PathSet.isLoop_steps`,
`PathSet.isLoop_paths`, `Value.isLoop_fields`, `Value.isLoop_elements`).

Objects and arrays run inside each other and recurse on each other's numbers. All of that happens
behind the header of a field, which is why the numbers make no difference (`Value.settled_nested`)
and why no other readers have the same turns (`Value.IsNest.eq`).
-/

namespace FieldWire

open Reader (Turn IsLoop Consumes IsSettled EqBelow)

/-! ### Path sets -/

namespace PathSet

/-- A turn of the loop of steps, behind those already taken (last one first). -/
def stepTurn (taken : Path) : Reader (Turn Path Path) := do
  let next ← Reader.mapError (fun _ => .malformedPathSet .unterminated) Reader.peek
  if next = pathSeparator ∨ next = pathSetEnd then return .leave taken.reverse
  else
    let step ← PathStep.read
    return .again (step :: taken)

/-- Takes steps up to a separator or the end byte. -/
def steps : Path → Reader Path := Reader.unfueled readSteps

/-- A turn of the loop of paths, behind those already taken (last one first). -/
def pathTurn (taken : List Path) : Reader (Turn (List Path) PathSet) := do
  let path ← steps []
  if path.isEmpty then throw (.malformedPathSet .emptyPath)
  let delimiter ← Reader.byte
  if delimiter = pathSetEnd then return .leave (path :: taken).reverse
  else return .again (path :: taken)

/-- Takes paths up to the end byte. -/
def paths : List Path → Reader PathSet := Reader.unfueled readPaths

private theorem readSteps_succ (fuel : Nat) (taken : Path) :
    readSteps (fuel + 1) taken = stepTurn taken >>= Reader.next (readSteps fuel) := by
  simp only [readSteps, stepTurn, bind_assoc, Reader.ite_bind, pure_bind, Reader.next]

private theorem consumes_stepTurn : Consumes stepTurn := by
  refine Reader.consumes_of_yields fun taken depth => ?_
  have hpeek : (Reader.mapError (fun _ => .malformedPathSet .unterminated)
      Reader.peek).IsStepwise depth := .mapError .peek _
  refine hpeek.yields.bind fun u next _ => ?_
  split
  · exact .pure fun s' h => by cases h
  · refine PathStep.yields_read.bind ?_
    rintro _ step ⟨rfl, -⟩
    refine .pure fun s' _ => ?_
    simp [PathStep.bytes]

private theorem settled_readSteps : IsSettled readSteps :=
  Reader.settled_of_turn consumes_stepTurn fun fuel taken => by
    rw [readSteps_succ]
    exact .refl _ _

/-- The reader of steps is a loop. -/
theorem isLoop_steps : IsLoop stepTurn steps :=
  Reader.isLoop_unfueled settled_readSteps consumes_stepTurn fun fuel taken => by
    rw [readSteps_succ]
    exact .refl _ _

private theorem isStepwise_steps {limit : Nat} (taken : Path) :
    (steps taken).IsStepwise limit :=
  .unfueled isStepwise_readSteps taken

private theorem eqBelow_readPaths_succ (fuel : Nat) (taken : List Path) :
    EqBelow (fuel + 1) (readPaths (fuel + 1) taken)
      (pathTurn taken >>= Reader.next (readPaths fuel)) := by
  simp only [readPaths, pathTurn, bind_assoc, Reader.ite_bind, pure_bind, Reader.throw_bind,
    Reader.next]
  exact (settled_readSteps.eqBelow (fuel + 1) []).bind_left _

private theorem consumes_pathTurn : Consumes pathTurn := by
  refine Reader.consumes_of_yields fun taken depth => ?_
  have hsteps : (steps []).IsStepwise depth := isStepwise_steps []
  refine hsteps.yields.bind fun u path _ => ?_
  split
  · exact .throw _
  · refine Reader.Yields.byte.bind ?_
    rintro _ delimiter rfl
    split
    · exact .pure fun s' h => by cases h
    · refine .pure fun s' _ => ?_
      simp

/-- The reader of paths is a loop. -/
theorem isLoop_paths : IsLoop pathTurn paths :=
  Reader.isLoop_unfueled (Reader.settled_of_turn consumes_pathTurn eqBelow_readPaths_succ)
    consumes_pathTurn eqBelow_readPaths_succ

/-- A path set is read by the loop of paths. -/
theorem read_eq : PathSet.read = paths [] := rfl

end PathSet

/-! ### Objects and arrays -/

namespace Value

variable (registry : Registry) (limit : Nat)

/-- Takes the fields of an object; an `inner` object needs its end marker. -/
def fields (inner : Bool) : Object → Reader Object :=
  Reader.unfueled fun fuel => readFields registry limit fuel inner

/-- Takes the elements of an array and its end marker. -/
def elements : List Element → Reader (List Element) :=
  Reader.unfueled (readElements registry limit)

/-- A turn of the loop of fields, behind those already taken (last one first), given how to take the
value of a field. -/
def fieldTurnWith (value : Field → Reader Value) (inner : Bool) (taken : Object) :
    Reader (Turn Object Object) := do
  if !inner && (← get).rest.isEmpty then return .leave taken.reverse
  else
    let f ← registry.readField
    if f.name = objectEndName then return .leave taken.reverse
    else if f.name = arrayEndName then throw (.invalidHeader .strayArrayEnd)
    else
      let v ← value f
      return .again ((f, v) :: taken)

/-- A turn of the loop of fields. -/
def fieldTurn : Bool → Object → Reader (Turn Object Object) :=
  fieldTurnWith registry (readOfField registry limit)

/-- A turn of the loop of elements, behind those already taken (last one first), given how to take
the fields of an element. -/
def elementTurnWith (body : Reader Object) (taken : List Element) :
    Reader (Turn (List Element) (List Element)) := do
  let f ← registry.readField
  if f.name = arrayEndName then return .leave taken.reverse
  else if f.isElement then
    let fields ← body
    return .again ((f, fields) :: taken)
  else throw (.typeMismatch f.name (.kind .array) .elementKind)

/-- A turn of the loop of elements. -/
def elementTurn : List Element → Reader (Turn (List Element) (List Element)) :=
  elementTurnWith registry (Reader.nested limit (fields registry limit true []))

/-- A value is read with the loops of fields and elements, one level deeper. -/
theorem read_eq : read registry limit =
    readWith (Reader.nested limit (fields registry limit true []))
      (Reader.nested limit (elements registry limit [])) := by
  funext kind length c
  cases kind <;> rfl

/-- The object that fills a byte string is read by the loop of fields. -/
theorem readRoot_eq : Object.readRoot registry limit = fields registry limit false [] := rfl

/-- The loop of fields after one more turn, given the loops for what follows and what is inside. -/
def unrollFields (objects : Bool → Object → Reader Object)
    (arrays : List Element → Reader (List Element)) (inner : Bool) (taken : Object) :
    Reader Object :=
  fieldTurnWith registry (readOfFieldWith (readWith (Reader.nested limit (objects true []))
    (Reader.nested limit (arrays [])))) inner taken >>= Reader.next (objects inner)

/-- The loop of elements after one more turn. -/
def unrollElements (objects : Bool → Object → Reader Object)
    (arrays : List Element → Reader (List Element)) (taken : List Element) :
    Reader (List Element) :=
  elementTurnWith registry (Reader.nested limit (objects true [])) taken >>= Reader.next arrays

theorem readFields_eq_unroll (fuel : Nat) (inner : Bool) (taken : Object) :
    readFields registry limit (fuel + 1) inner taken = unrollFields registry limit
      (readFields registry limit fuel) (readElements registry limit fuel) inner taken := by
  simp only [readFields, unrollFields, fieldTurnWith, bind_assoc, Reader.ite_bind, pure_bind,
    Reader.throw_bind, Reader.next]

theorem readElements_eq_unroll (fuel : Nat) (taken : List Element) :
    readElements registry limit (fuel + 1) taken = unrollElements registry limit
      (readFields registry limit fuel) (readElements registry limit fuel) taken := by
  simp only [readElements, unrollElements, elementTurnWith, bind_assoc, Reader.ite_bind, pure_bind,
    Reader.throw_bind, Reader.next]

variable {registry limit}

/-! ### Bytes of turns -/

/-- A field has at least one byte for its header. -/
private theorem yields_header (depth : Nat) :
    registry.readField.Yields depth fun taken _ => 1 ≤ taken.length := by
  refine Registry.yields_readField.mono ?_
  rintro _ f ⟨rfl, -⟩
  exact f.header.length_bytes_pos

private theorem ne_nil_of_header {header behind : List UInt8} (h : 1 ≤ header.length) :
    header ++ behind ≠ [] := by
  rintro hnil
  rw [(List.append_eq_nil_iff.1 hnil).1] at h
  cases h

private theorem consumes_fieldTurnWith (registry : Registry) (limit : Nat)
    {value : Field → Reader Value} (hvalue : ∀ f, (value f).IsStepwise limit) (inner : Bool) :
    Consumes (fieldTurnWith registry value inner) := by
  refine Reader.consumes_of_yields fun taken depth => ?_
  refine Reader.Yields.get.nil_bind fun c _ => ?_
  split
  · exact .pure fun s' h => by cases h
  · refine (yields_header depth).bind fun header f hheader => ?_
    split
    · exact .pure fun s' h => by cases h
    · split
      · exact .throw _
      · refine (hvalue f).yields.bind fun bytes v _ => ?_
        exact .pure fun s' _ => ne_nil_of_header hheader

private theorem consumes_elementTurnWith (registry : Registry) {body : Reader Object}
    (hbody : body.IsStepwise limit) : Consumes (elementTurnWith registry body) := by
  refine Reader.consumes_of_yields fun taken depth => ?_
  refine (yields_header depth).bind fun header f hheader => ?_
  split
  · exact .pure fun s' h => by cases h
  · split
    · refine hbody.yields.bind fun bytes fields _ => ?_
      exact .pure fun s' _ => ne_nil_of_header hheader
    · exact .throw _

/-! ### Numbers that make no difference -/

private theorem eqBelow_readWith {n : Nat} {objects objects' : Reader Object}
    {arrays arrays' : Reader (List Element)} (hobjects : EqBelow n objects objects')
    (harrays : EqBelow n arrays arrays') (kind : Kind) (length : Option Nat) :
    EqBelow n (readWith objects arrays kind length) (readWith objects' arrays' kind length) := by
  cases kind
  case object => exact hobjects.bind_left _
  case array => exact harrays.bind_left _
  all_goals exact .refl _ _

private theorem eqBelow_readOfFieldWith {n : Nat} {value value' : Kind → Option Nat → Reader Value}
    (hvalue : ∀ kind length, EqBelow n (value kind length) (value' kind length)) (f : Field) :
    EqBelow n (readOfFieldWith value f) (readOfFieldWith value' f) := by
  unfold readOfFieldWith
  split
  · refine .bind_right (fun _ => LengthPrefix.isStepwise_read) fun length => ?_
    refine .bind_right (fun _ => .need length) fun _ => ?_
    refine .get_bind fun start => ?_
    exact (hvalue f.kind (some length)).bind_left _
  · exact hvalue f.kind none

/-- The header is in front of the value, so a byte more may be left before a turn. -/
private theorem eqBelow_fieldTurnWith {n : Nat} {value value' : Field → Reader Value}
    (hvalue : ∀ f, EqBelow n (value f) (value' f)) (inner : Bool) (taken : Object) :
    EqBelow (n + 1) (fieldTurnWith registry value inner taken)
      (fieldTurnWith registry value' inner taken) := by
  refine .get_bind fun c => ?_
  split
  · exact .refl _ _
  · refine .bind yields_header fun f => ?_
    split
    · exact .refl _ _
    · split
      · exact .refl _ _
      · exact (hvalue f).bind_left _

private theorem eqBelow_elementTurnWith {n : Nat} {body body' : Reader Object}
    (hbody : EqBelow n body body') (taken : List Element) :
    EqBelow (n + 1) (elementTurnWith registry body taken)
      (elementTurnWith registry body' taken) := by
  refine .bind yields_header fun f => ?_
  split
  · exact .refl _ _
  · split
    · exact hbody.bind_left _
    · exact .refl _ _

variable (registry limit)

/-- What is inside an object or an array is read behind a header, and so is what follows: loops that
agree near the end agree a byte earlier after one more turn. -/
private theorem eqBelow_unroll {n : Nat} {objects objects' : Bool → Object → Reader Object}
    {arrays arrays' : List Element → Reader (List Element)}
    (hstepwise : (∀ inner taken, (objects' inner taken).IsStepwise limit) ∧
      ∀ taken, (arrays' taken).IsStepwise limit)
    (hobjects : ∀ inner taken, EqBelow n (objects inner taken) (objects' inner taken))
    (harrays : ∀ taken, EqBelow n (arrays taken) (arrays' taken)) :
    (∀ inner taken, EqBelow (n + 1) (unrollFields registry limit objects arrays inner taken)
      (unrollFields registry limit objects' arrays' inner taken)) ∧
      ∀ taken, EqBelow (n + 1) (unrollElements registry limit objects arrays taken)
        (unrollElements registry limit objects' arrays' taken) := by
  obtain ⟨hfields, helements⟩ := hstepwise
  have hobject := (hobjects true []).nested limit
  have harray := (harrays []).nested limit
  constructor
  · intro inner taken
    have hvalue := eqBelow_readOfFieldWith (eqBelow_readWith hobject harray)
    -- first the loops inside the turn are exchanged, then the loop that follows on it
    have hconsumes := consumes_fieldTurnWith registry limit (fun f =>
      isStepwise_readOfFieldWith (f := f)
        (isStepwise_readWith (hfields true []).nested (helements []).nested f.kind)) inner
    exact ((eqBelow_fieldTurnWith hvalue inner taken).bind_left _).trans
      (hconsumes.eqBelow (hobjects inner) taken)
  · intro taken
    have hconsumes := consumes_elementTurnWith registry (hfields true []).nested
    exact ((eqBelow_elementTurnWith hobject taken).bind_left _).trans
      (hconsumes.eqBelow harrays taken)

/-- Numbers above the count of bytes left make no difference to objects and arrays. -/
theorem settled_nested :
    (∀ inner, IsSettled fun fuel => readFields registry limit fuel inner) ∧
      IsSettled (readElements registry limit) := by
  suffices hsettled : ∀ fuel more, fuel ≤ more →
      (∀ inner taken, EqBelow fuel (readFields registry limit fuel inner taken)
        (readFields registry limit more inner taken)) ∧
      ∀ taken, EqBelow fuel (readElements registry limit fuel taken)
        (readElements registry limit more taken) from
    ⟨fun inner fuel more taken hle => (hsettled fuel more hle).1 inner taken,
      fun fuel more taken hle => (hsettled fuel more hle).2 taken⟩
  intro fuel
  induction fuel with
  | zero => exact fun more _ => ⟨fun _ _ => .zero _ _, fun _ => .zero _ _⟩
  | succ fuel ih =>
    intro more hle
    obtain ⟨k, rfl⟩ : ∃ k, more = k + 1 := ⟨more - 1, by omega⟩
    obtain ⟨hfields, helements⟩ := ih k (by omega)
    have hunroll := eqBelow_unroll registry limit (isStepwise_nested registry limit k) hfields helements
    simp only [readFields_eq_unroll, readElements_eq_unroll]
    exact hunroll

/-! ### Loops -/

/-- The readers are loops of fields and of elements that read what is inside with each other. -/
structure IsNest (objects : Bool → Object → Reader Object)
    (arrays : List Element → Reader (List Element)) : Prop where
  /-- Fields are read in turns. -/
  objects_eq : ∀ inner taken,
    objects inner taken = unrollFields registry limit objects arrays inner taken
  /-- Elements are read in turns. -/
  arrays_eq : ∀ taken, arrays taken = unrollElements registry limit objects arrays taken

private theorem isStepwise_loops :
    (∀ inner taken, (fields registry limit inner taken).IsStepwise limit) ∧
      ∀ taken, (elements registry limit taken).IsStepwise limit :=
  ⟨fun inner taken => .unfueled (fun fuel => (isStepwise_nested registry limit fuel).1 inner) taken,
    fun taken => .unfueled (fun fuel => (isStepwise_nested registry limit fuel).2) taken⟩

/-- The readers of fields and elements are loops inside each other. -/
theorem isNest_fields : IsNest registry limit (fields registry limit) (elements registry limit) := by
  obtain ⟨hobjects, harrays⟩ := settled_nested registry limit
  have hunroll := fun n => eqBelow_unroll registry limit (isStepwise_loops registry limit)
    (fun inner => (hobjects inner).eqBelow n) (harrays.eqBelow n)
  constructor
  · intro inner taken
    funext c
    have hrun := congrFun (readFields_eq_unroll registry limit c.remaining inner taken) c
    exact hrun.trans ((hunroll c.remaining).1 inner taken c (Nat.lt_succ_self _))
  · intro taken
    funext c
    have hrun := congrFun (readElements_eq_unroll registry limit c.remaining taken) c
    exact hrun.trans ((hunroll c.remaining).2 taken c (Nat.lt_succ_self _))

/-- Loops inside each other are determined by their turns. -/
theorem IsNest.eq {registry : Registry} {limit : Nat} {objects : Bool → Object → Reader Object}
    {arrays : List Element → Reader (List Element)} (h : IsNest registry limit objects arrays) :
    objects = fields registry limit ∧ arrays = elements registry limit := by
  suffices heq : ∀ n, (∀ inner taken, EqBelow n (objects inner taken)
      (fields registry limit inner taken)) ∧
      ∀ taken, EqBelow n (arrays taken) (elements registry limit taken) by
    constructor
    · funext inner taken c
      exact (heq (c.remaining + 1)).1 inner taken c (Nat.lt_succ_self _)
    · funext taken c
      exact (heq (c.remaining + 1)).2 taken c (Nat.lt_succ_self _)
  intro n
  induction n with
  | zero => exact ⟨fun _ _ => .zero _ _, fun _ => .zero _ _⟩
  | succ n ih =>
    have hunroll := eqBelow_unroll registry limit (isStepwise_loops registry limit) ih.1 ih.2
    constructor
    · intro inner taken
      rw [h.objects_eq, (isNest_fields registry limit).objects_eq]
      exact hunroll.1 inner taken
    · intro taken
      rw [h.arrays_eq, (isNest_fields registry limit).arrays_eq]
      exact hunroll.2 taken

/-- The reader of fields is a loop. -/
theorem isLoop_fields (inner : Bool) :
    IsLoop (fieldTurn registry limit inner) (fields registry limit inner) := by
  refine Reader.isLoop_of_eq (fun taken => ?_) (consumes_fieldTurnWith registry limit
    (fun f => isStepwise_readOfFieldWith fun length => isStepwise_read registry f.kind length) inner)
  have heq := (isNest_fields registry limit).objects_eq inner taken
  rw [unrollFields, ← read_eq] at heq
  exact heq

/-- The reader of elements is a loop. -/
theorem isLoop_elements : IsLoop (elementTurn registry limit) (elements registry limit) :=
  Reader.isLoop_of_eq (isNest_fields registry limit).arrays_eq
    (consumes_elementTurnWith registry ((isStepwise_loops registry limit).1 true []).nested)

end Value

end FieldWire
