import FieldWire.Proofs.Wire.Framing
import FieldWire.Proofs.Wire.Steps

/-!
# The steps of reading values

Every reader of the wire format is made of steps: that of headers and lengths, those of all kinds of
values, and those of objects and arrays, whatever their fuel (`Value.isStepwise_nested`). So they
are safe in every byte string, and in particular they come back to the depth at which they began,
also where they fail.
-/

namespace FieldWire

variable {limit : Nat}

/-! ### Headers and lengths -/

theorem Header.isStepwise_read : Header.read.IsStepwise limit := by
  have hcode : ∀ half fault, (readCode half fault).IsStepwise limit := by
    intro half fault
    unfold readCode
    split
    · refine Reader.IsStepwise.byte.bind fun code => ?_
      split
      · exact .throw _
      · exact .pure _
    · exact .pure _
  rw [read_eq]
  exact Reader.IsStepwise.byte.bind fun first =>
    (hcode _ _).bind fun typeCode => (hcode _ _).bind fun fieldCode => .pure _

theorem Registry.isStepwise_readField (registry : Registry) :
    registry.readField.IsStepwise limit :=
  Header.isStepwise_read.bind fun _ => .lift _

theorem LengthPrefix.isStepwise_read : LengthPrefix.read.IsStepwise limit := by
  refine Reader.IsStepwise.byte.bind fun first => ?_
  dsimp only
  split_ifs
  · exact .pure _
  · exact Reader.IsStepwise.byte.bind fun second => .pure _
  · exact Reader.IsStepwise.byte.bind fun second =>
      Reader.IsStepwise.byte.bind fun third => .pure _
  · exact .throw _

/-! ### Leaves -/

theorem Currency.isStepwise_readChecked : Currency.readChecked.IsStepwise limit :=
  (Reader.IsStepwise.octets 20).bind fun _ => .lift _

theorem Currency.isStepwise_read (length : Option Nat) :
    (Currency.read length).IsStepwise limit :=
  (Reader.IsStepwise.checkWidth _ _ _).bind fun _ => isStepwise_readChecked

theorem Issue.isStepwise_read (length : Option Nat) : (Issue.read length).IsStepwise limit := by
  refine Currency.isStepwise_readChecked.bind fun currency => ?_
  split
  · exact (Reader.IsStepwise.checkWidth _ _ _).bind fun _ => .pure _
  · exact (Reader.IsStepwise.checkWidth _ _ _).bind fun _ =>
      (Reader.IsStepwise.octets 20).bind fun issuer => .pure _

theorem Amount.isStepwise_read (length : Option Nat) : (Amount.read length).IsStepwise limit := by
  refine Reader.IsStepwise.peek.bind fun first => ?_
  refine (Reader.IsStepwise.checkWidth _ _ _).bind fun _ => ?_
  refine (Reader.IsStepwise.number 8).bind fun bits => ?_
  split
  · exact .lift _
  · refine (Reader.IsStepwise.lift _).bind fun value => ?_
    refine Currency.isStepwise_readChecked.bind fun currency => ?_
    split
    · exact .throw _
    · exact (Reader.IsStepwise.octets 20).bind fun issuer => .pure _

/-! ### Path sets -/

namespace PathStep

private theorem isStepwise_readMember (tag bit : UInt8) :
    (readMember tag bit).IsStepwise limit := by
  unfold readMember
  split
  · exact .pure none
  · exact ((Reader.IsStepwise.octets 20).mapError _).map some

theorem isStepwise_read : PathStep.read.IsStepwise limit := by
  refine Reader.IsStepwise.byte.bind fun tag => ?_
  dsimp only
  split
  · exact .throw _
  · refine (isStepwise_readMember _ _).bind fun account => ?_
    refine (isStepwise_readMember _ _).bind fun raw => ?_
    cases raw with
    | none => exact (isStepwise_readMember _ _).bind fun issuer => .pure _
    | some bytes =>
      refine ((Reader.IsStepwise.lift _).map some).bind fun currency => ?_
      exact (isStepwise_readMember _ _).bind fun issuer => .pure _

end PathStep

namespace PathSet

theorem isStepwise_readSteps (fuel : Nat) (taken : Path) :
    (readSteps fuel taken).IsStepwise limit := by
  induction fuel generalizing taken with
  | zero => exact .throw _
  | succ fuel ih =>
    refine (Reader.IsStepwise.peek.mapError _).bind fun next => ?_
    split
    · exact .pure _
    · exact PathStep.isStepwise_read.bind fun step => ih (step :: taken)

theorem isStepwise_readPaths (fuel : Nat) (taken : List Path) :
    (readPaths fuel taken).IsStepwise limit := by
  induction fuel generalizing taken with
  | zero => exact .throw _
  | succ fuel ih =>
    refine (isStepwise_readSteps _ _).bind fun path => ?_
    split
    · exact .throw _
    · refine Reader.IsStepwise.byte.bind fun delimiter => ?_
      split
      · exact .pure _
      · exact ih (path :: taken)

theorem isStepwise_read : PathSet.read.IsStepwise limit :=
  .get_bind (fun _ => isStepwise_readPaths _ _) fun c d _ hremaining => by rw [hremaining]

end PathSet

/-! ### Objects and arrays -/

namespace Value

private theorem isStepwise_readWord (kind : Kind) (width : Nat) (length : Option Nat) :
    (readWord kind width length).IsStepwise limit :=
  (Reader.IsStepwise.checkWidth _ _ _).bind fun _ => .number width

private theorem isStepwise_readOctets (kind : Kind) (width : Nat) (length : Option Nat) :
    (readOctets kind width length).IsStepwise limit :=
  (Reader.IsStepwise.checkWidth _ _ _).bind fun _ => .octets width

private theorem isStepwise_readBlob (length : Option Nat) :
    (readBlob length).IsStepwise limit := by
  cases length with
  | none => exact .throw _
  | some n => exact .take n

private theorem isStepwise_readHashes (count : Nat) (taken : List (Octets 32)) :
    (readHashes count taken).IsStepwise limit := by
  induction count generalizing taken with
  | zero => exact .pure _
  | succ count ih => exact (Reader.IsStepwise.octets 32).bind fun hash => ih (hash :: taken)

private theorem isStepwise_readVector (length : Option Nat) :
    (readVector length).IsStepwise limit := by
  cases length with
  | none => exact .throw _
  | some n =>
    rw [readVector]
    split
    · exact isStepwise_readHashes _ _
    · exact .throw _

/-- Reading a value is made of steps if reading objects and arrays is. -/
theorem isStepwise_readWith {objects : Reader Object} {arrays : Reader (List Element)}
    (hobjects : objects.IsStepwise limit) (harrays : arrays.IsStepwise limit) (kind : Kind)
    (length : Option Nat) : (readWith objects arrays kind length).IsStepwise limit := by
  cases kind with
  | uint8 | uint16 | uint32 | uint64 =>
    exact (isStepwise_readWord _ _ _).bind fun n => .pure _
  | hash128 | hash160 | hash256 | account =>
    exact (isStepwise_readOctets _ _ _).bind fun bytes => .pure _
  | blob => exact (isStepwise_readBlob _).bind fun bytes => .pure _
  | amount => exact (Amount.isStepwise_read _).bind fun amount => .pure _
  | currency => exact (Currency.isStepwise_read _).bind fun currency => .pure _
  | issue => exact (Issue.isStepwise_read _).bind fun issue => .pure _
  | vector256 => exact (isStepwise_readVector _).bind fun hashes => .pure _
  | pathSet => exact PathSet.isStepwise_read.bind fun paths => .pure _
  | object => exact hobjects.bind fun fields => .pure _
  | array => exact harrays.bind fun elements => .pure _

theorem isStepwise_readOfFieldWith {value : Kind → Option Nat → Reader Value} {f : Field}
    (hvalue : ∀ length, (value f.kind length).IsStepwise limit) :
    (readOfFieldWith value f).IsStepwise limit := by
  rw [readOfFieldWith]
  split
  · refine LengthPrefix.isStepwise_read.bind fun length => ?_
    refine (Reader.IsStepwise.need length).bind fun _ => .get_bind (fun start => ?_) ?_
    · refine (hvalue (some length)).bind fun v => .get_bind (fun stop => ?_) ?_
      · dsimp only
        split
        · exact .pure v
        · exact .throw _
      · intro stop stop' hposition _
        rw [hposition]
    · intro start start' hposition _
      rw [hposition]
  · exact hvalue none

/-- The loops of objects and arrays are made of steps. -/
theorem isStepwise_nested (registry : Registry) (limit fuel : Nat) :
    (∀ inner taken, (readFields registry limit fuel inner taken).IsStepwise limit) ∧
      ∀ taken, (readElements registry limit fuel taken).IsStepwise limit := by
  induction fuel with
  | zero =>
    constructor
    · intro inner taken
      rw [readFields]
      exact .throw _
    · intro taken
      rw [readElements]
      exact .throw _
  | succ fuel ih =>
    obtain ⟨hfields, helements⟩ := ih
    constructor
    · intro inner taken
      rw [readFields]
      refine .get_bind (fun c => ?_) fun c d _ hremaining => ?_
      · split
        · exact .pure _
        · refine registry.isStepwise_readField.bind fun f => ?_
          split
          · exact .pure _
          · split
            · exact .throw _
            · have hvalue := isStepwise_readWith (hfields true []).nested (helements []).nested f.kind
              exact (isStepwise_readOfFieldWith hvalue).bind fun v =>
                hfields inner ((f, v) :: taken)
      · rw [c.isEmpty_rest, d.isEmpty_rest, hremaining]
    · intro taken
      rw [readElements]
      refine registry.isStepwise_readField.bind fun f => ?_
      split
      · exact .pure _
      · split
        · exact (hfields true []).nested.bind fun fields => helements ((f, fields) :: taken)
        · exact .throw _

theorem isStepwise_read (registry : Registry) (kind : Kind) (length : Option Nat) :
    (read registry limit kind length).IsStepwise limit := by
  refine .get_bind (fun c => ?_) fun c d _ hremaining => by rw [hremaining]
  obtain ⟨hfields, helements⟩ := isStepwise_nested registry limit (c.remaining + 1)
  exact isStepwise_readWith (hfields true []).nested (helements []).nested kind length

end Value

theorem Object.isStepwise_readRoot (registry : Registry) :
    (Object.readRoot registry limit).IsStepwise limit :=
  .get_bind (fun _ => (Value.isStepwise_nested registry limit _).1 false [])
    fun c d _ hremaining => by rw [hremaining]

end FieldWire
