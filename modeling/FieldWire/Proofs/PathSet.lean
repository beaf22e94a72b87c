import FieldWire.Proofs.Asset
import FieldWire.Proofs.Outcome

/-!
# Path sets read back

A step is *proper* when it has a member and its currency, if it has one, does not spell out the
native code; a path set is proper when it has paths, these have steps, and the steps are proper.
Path sets of plain values and of bytes are proper, and proper ones read back from their plain form
and from their bytes.

The tag of a proper step is neither of the bytes that end a path (`PathStep.tag_ne_zero_iff`,
`PathStep.tag_ne_separator`). This is what makes the end of a path unmistakable. A path is read up
to the byte behind it, so its laws speak of what is read next (`PathSet.reads_readSteps_bind`,
`PathSet.yields_readSteps_bind`).
-/

namespace FieldWire

variable {depth : Nat}

/-! ### Steps -/

namespace PathStep

/-- There is a member, and the currency is proper. -/
def IsProper (step : PathStep) : Prop :=
  (step.account.isSome = true ∨ step.currency.isSome = true ∨ step.issuer.isSome = true) ∧
    ∀ c ∈ step.currency, c.IsProper

instance (step : PathStep) : Decidable step.IsProper := inferInstanceAs (Decidable (_ ∧ _))

theorem tag_ne_zero_iff {step : PathStep} : step.tag ≠ pathSetEnd ↔
    step.account.isSome = true ∨ step.currency.isSome = true ∨ step.issuer.isSome = true := by
  unfold tag
  generalize step.account.isSome = account, step.currency.isSome = currency,
    step.issuer.isSome = issuer
  revert account currency issuer
  decide

theorem tag_ne_separator (step : PathStep) : step.tag ≠ pathSeparator := by
  unfold tag
  generalize step.account.isSome = account, step.currency.isSome = currency,
    step.issuer.isSome = issuer
  revert account currency issuer
  decide

/-- A tag announces the members of its step and no others. -/
private theorem tag_bits (step : PathStep) :
    step.tag &&& ~~~(accountBit ||| currencyBit ||| issuerBit) = 0 ∧
      (step.tag &&& accountBit = 0 ↔ step.account = none) ∧
        (step.tag &&& currencyBit = 0 ↔ step.currency = none) ∧
          (step.tag &&& issuerBit = 0 ↔ step.issuer = none) := by
  simp only [← Option.not_isSome_iff_eq_none]
  unfold tag
  generalize step.account.isSome = account, step.currency.isSome = currency,
    step.issuer.isSome = issuer
  revert account currency issuer
  decide

/-- Only the tag of a step announces its members. -/
private theorem eq_tag {tag : UInt8} {step : PathStep}
    (hknown : tag &&& ~~~(accountBit ||| currencyBit ||| issuerBit) = 0)
    (haccount : tag &&& accountBit = 0 ↔ step.account = none)
    (hcurrency : tag &&& currencyBit = 0 ↔ step.currency = none)
    (hissuer : tag &&& issuerBit = 0 ↔ step.issuer = none) : tag = step.tag := by
  have hall : ∀ n < 256,
      UInt8.ofNat n &&& ~~~(accountBit ||| currencyBit ||| issuerBit) = 0 →
      UInt8.ofNat n = (if ¬UInt8.ofNat n &&& accountBit = 0 then accountBit else 0) |||
        (if ¬UInt8.ofNat n &&& currencyBit = 0 then currencyBit else 0) |||
          (if ¬UInt8.ofNat n &&& issuerBit = 0 then issuerBit else 0) := by
    decide +kernel
  have htag := hall tag.toNat tag.toNat_lt
  simp only [UInt8.ofNat_toNat, haccount, hcurrency, hissuer,
    ← Option.not_isSome_iff_eq_none, Decidable.not_not] at htag
  exact htag hknown

private theorem reads_readMember {tag bit : UInt8} {member : Option (Octets 20)}
    (h : tag &&& bit = 0 ↔ member = none) :
    (readMember tag bit).Reads depth (member.toList.flatMap Octets.toList) member := by
  unfold readMember
  cases member with
  | none =>
    rw [if_pos (h.2 rfl)]
    exact .pure none
  | some bytes =>
    rw [if_neg fun hzero => nomatch h.1 hzero]
    simp only [Option.toList_some, List.flatMap_cons, List.flatMap_nil, List.append_nil]
    exact ((Reader.Reads.octets bytes).mapError _).map some

private theorem yields_readMember (tag bit : UInt8) :
    (readMember tag bit).Yields depth fun taken member =>
      taken = member.toList.flatMap Octets.toList ∧ (tag &&& bit = 0 ↔ member = none) := by
  unfold readMember
  split
  · next hzero => exact .pure ⟨rfl, fun _ => rfl, fun _ => hzero⟩
  · next hone =>
    refine .map ((Reader.Yields.octets 20).mapError _ |>.mono ?_)
    rintro _ bytes rfl
    exact ⟨by simp, fun hzero => absurd hzero hone, nofun⟩

private theorem toList_flatMap_bytes (currency : Option Currency) :
    currency.toList.flatMap (fun c => c.bytes.toList) =
      (currency.map Currency.bytes).toList.flatMap Octets.toList := by
  cases currency <;> simp

/-- The bytes of a proper step read back. -/
theorem reads_read {step : PathStep} (h : step.IsProper) :
    PathStep.read.Reads depth step.bytes step := by
  obtain ⟨hknown, haccount, hcurrency, hissuer⟩ := tag_bits step
  rw [bytes, toList_flatMap_bytes, List.append_assoc]
  refine (Reader.Reads.byte _).bind (u := [_]) ?_
  simp only [hknown, ne_eq, not_true_eq_false, if_false]
  refine (reads_readMember haccount).bind ?_
  rw [← Option.map_eq_none_iff (f := Currency.bytes)] at hcurrency
  refine (reads_readMember hcurrency).bind ?_
  obtain ⟨account, currency, issuer⟩ := step
  cases currency with
  | none => exact (reads_readMember hissuer).bind_nil (.pure _)
  | some c =>
    have hproper : c.IsProper := h.2 c rfl
    simp only [Option.map_some, Currency.checked_eq_ok_iff.2 ⟨rfl, hproper⟩, bind_pure_comp]
    refine ((Reader.Reads.lift c).map some).nil_bind ?_
    exact (reads_readMember hissuer).map _

/-- A step that is read was given by its bytes, and its currency is proper. -/
theorem yields_read : PathStep.read.Yields depth fun taken step =>
    taken = step.bytes ∧ ∀ c ∈ step.currency, c.IsProper := by
  refine Reader.Yields.byte.bind ?_
  rintro _ tag rfl
  dsimp only
  split
  · exact .throw _
  · next hknown =>
    have hknown := Decidable.not_not.1 hknown
    refine (yields_readMember _ _).bind ?_
    rintro _ account ⟨rfl, haccount⟩
    refine (yields_readMember _ _).bind ?_
    rintro _ raw ⟨rfl, hcurrency⟩
    -- the issuer is read in the same way with and without a currency
    have hlast : ∀ currency : Option Currency, raw = currency.map Currency.bytes →
        (∀ c ∈ currency, c.IsProper) → (readMember tag issuerBit >>= fun issuer =>
          pure (PathStep.mk account currency issuer)).Yields depth fun v step =>
            [tag] ++ (account.toList.flatMap Octets.toList ++
              (raw.toList.flatMap Octets.toList ++ v)) = step.bytes ∧
                ∀ c ∈ step.currency, c.IsProper := by
      rintro currency rfl hproper
      refine (yields_readMember _ _).bind ?_
      rintro _ issuer ⟨rfl, hissuer⟩
      refine .pure ⟨?_, hproper⟩
      rw [Option.map_eq_none_iff] at hcurrency
      have htag : tag = PathStep.tag ⟨account, currency, issuer⟩ :=
        eq_tag hknown haccount hcurrency hissuer
      rw [bytes, ← htag, toList_flatMap_bytes]
      simp
    cases raw with
    | none => exact hlast none rfl nofun
    | some bytes =>
      have hcurrency' : (some <$> Reader.lift (Currency.checked ⟨bytes⟩)).Yields depth
          fun taken currency => taken = [] ∧ (some bytes = currency.map Currency.bytes ∧
            ∀ c ∈ currency, c.IsProper) := by
        refine .map ((Reader.Yields.lift _).mono ?_)
        rintro _ c ⟨rfl, hc⟩
        obtain ⟨rfl, hproper⟩ := Currency.checked_eq_ok_iff.1 hc
        exact ⟨rfl, rfl, fun c hc => by cases hc; exact hproper⟩
      exact hcurrency'.nil_bind fun currency h => hlast currency h.1 h.2

end PathStep

/-! ### Paths -/

namespace PathSet

/-- There are paths, these have steps, and the steps are proper. -/
def IsProper (paths : PathSet) : Prop :=
  paths ≠ [] ∧ ∀ path ∈ paths, path ≠ [] ∧ ∀ step ∈ path, step.IsProper

instance (paths : PathSet) : Decidable paths.IsProper := inferInstanceAs (Decidable (_ ∧ _))

/-- The steps of a path are read up to the byte that ends it, whatever reads on from there. -/
theorem reads_readSteps_bind {β : Type} {k : Path → Reader β} {path : Path}
    (hpath : ∀ step ∈ path, step.IsProper) {delimiter : UInt8}
    (hdelimiter : delimiter = pathSeparator ∨ delimiter = pathSetEnd) {rest : List UInt8}
    {b : β} {fuel : Nat} (hfuel : path.length < fuel) (taken : Path)
    (hk : (k (taken.reverse ++ path)).Reads depth (delimiter :: rest) b) :
    (readSteps fuel taken >>= k).Reads depth (stepBytes path ++ delimiter :: rest) b := by
  induction path generalizing fuel taken with
  | nil =>
    cases fuel with
    | zero => cases hfuel
    | succ fuel =>
      rw [readSteps, bind_assoc]
      refine .peeks_bind (Reader.peeks_peek.mapError _) ?_
      rw [if_pos hdelimiter, pure_bind]
      rwa [List.append_nil] at hk
  | cons step path ih =>
    cases fuel with
    | zero => cases hfuel
    | succ fuel =>
      have hstep := hpath step List.mem_cons_self
      rw [readSteps, bind_assoc, stepBytes, List.flatMap_cons, List.append_assoc]
      refine .peeks_bind (Reader.peeks_peek.mapError _) ?_
      -- a step starts with its tag, which is neither delimiter
      have htag : ¬(step.tag = pathSeparator ∨ step.tag = pathSetEnd) :=
        not_or.2 ⟨step.tag_ne_separator, PathStep.tag_ne_zero_iff.2 hstep.1⟩
      rw [if_neg htag, bind_assoc]
      refine (PathStep.reads_read hstep).bind ?_
      refine ih (fun s hs => hpath s (List.mem_cons_of_mem _ hs))
        (Nat.lt_of_succ_lt_succ hfuel) _ ?_
      rwa [List.reverse_cons, List.append_assoc]

private theorem length_le_length_stepBytes (path : Path) :
    path.length ≤ (stepBytes path).length := by
  induction path with
  | nil => exact Nat.le_refl _
  | cons step path ih =>
    rw [stepBytes, List.flatMap_cons, List.length_append, PathStep.bytes]
    rw [stepBytes] at ih
    simp only [List.length_cons]
    omega

/-- Proper paths are read from their bytes. -/
private theorem reads_readPaths {path : Path} {paths : List Path}
    (h : ∀ p ∈ path :: paths, p ≠ [] ∧ ∀ step ∈ p, step.IsProper) {fuel : Nat}
    (hfuel : (bytesFrom path paths).length ≤ fuel) (taken : List Path) :
    (readPaths fuel taken).Reads depth (bytesFrom path paths)
      (taken.reverse ++ path :: paths) := by
  obtain ⟨hpath, hsteps⟩ := h path List.mem_cons_self
  have hlength := length_le_length_stepBytes path
  have hempty : path.isEmpty = false := by simpa using hpath
  induction paths generalizing path fuel taken with
  | nil =>
    rw [bytesFrom] at hfuel ⊢
    rw [List.length_append, List.length_singleton] at hfuel
    obtain ⟨fuel, rfl⟩ : ∃ m, fuel = m + 1 := ⟨fuel - 1, by omega⟩
    rw [readPaths]
    refine reads_readSteps_bind hsteps (.inr rfl) (by omega) [] ?_
    rw [List.reverse_nil, List.nil_append, hempty, if_neg Bool.false_ne_true]
    refine (Reader.Reads.byte _).bind_nil ?_
    rw [if_pos rfl, List.reverse_cons]
    exact .pure _
  | cons next paths ih =>
    rw [bytesFrom] at hfuel ⊢
    rw [List.length_append, List.length_cons] at hfuel
    obtain ⟨fuel, rfl⟩ : ∃ m, fuel = m + 1 := ⟨fuel - 1, by omega⟩
    rw [readPaths]
    refine reads_readSteps_bind hsteps (.inl rfl) (by omega) [] ?_
    rw [List.reverse_nil, List.nil_append, hempty, if_neg Bool.false_ne_true]
    refine (Reader.Reads.byte _).bind (u := [_]) ?_
    rw [if_neg (by decide)]
    have hrest := h next (List.mem_cons_of_mem _ List.mem_cons_self)
    have hnext := ih (fun p hp => h p (List.mem_cons_of_mem _ hp))
      (show (bytesFrom next paths).length ≤ fuel by omega) (path :: taken) hrest.1 hrest.2
      (length_le_length_stepBytes next) (by simpa using hrest.1)
    rwa [List.reverse_cons, List.append_assoc] at hnext

/-- The bytes of a proper path set read back. -/
theorem reads_read {paths : PathSet} (h : paths.IsProper) {written : List UInt8}
    (hwritten : bytes paths = .ok written) : PathSet.read.Reads depth written paths := by
  cases paths with
  | nil => exact absurd rfl h.1
  | cons path paths =>
    cases hwritten
    intro rest position
    refine reads_readPaths h.2 ?_ [] rest position
    simp only [Cursor.remaining, List.length_append]
    omega

/-- Steps that are read are proper and were given by their bytes, and a byte that ends a path comes
next. -/
theorem yields_readSteps_bind {β : Type} {Q : List UInt8 → β → Prop} {k : Path → Reader β}
    {fuel : Nat} {taken : Path}
    (hk : ∀ path : Path, (∀ step ∈ path, step.IsProper) →
      (k (taken.reverse ++ path)).Yields depth fun v b =>
        (∀ first ∈ v.head?, first = pathSeparator ∨ first = pathSetEnd) →
          Q (stepBytes path ++ v) b) :
    (readSteps fuel taken >>= k).Yields depth Q := by
  induction fuel generalizing taken Q with
  | zero =>
    rw [readSteps, Reader.throw_bind]
    exact .throw _
  | succ fuel ih =>
    rw [readSteps, bind_assoc]
    refine .peeks_bind (Reader.peeks_peek.mapError _) fun next => ?_
    split
    · next hnext =>
      rw [pure_bind]
      refine .of_yields ?_
      have hend := hk [] nofun
      rw [List.append_nil] at hend
      exact hend.mono fun v b h hfirst => h fun first hv => (hfirst first hv) ▸ hnext
    · next hnext =>
      rw [bind_assoc]
      -- the step is proper because its tag is the byte that was looked at, which ends no path
      have hstep : PathStep.read.YieldsAt next depth fun u step =>
          u = step.bytes ∧ step.IsProper := by
        refine .of_yields (PathStep.yields_read.mono ?_)
        rintro _ step ⟨rfl, hcurrency⟩ hfirst
        have htag : step.tag = next := hfirst step.tag rfl
        refine ⟨rfl, PathStep.tag_ne_zero_iff.1 fun hzero => hnext (.inr ?_), hcurrency⟩
        rw [← htag, hzero]
      refine hstep.bind ?_
      rintro _ step ⟨rfl, hproper⟩
      refine ih fun path hpath => ?_
      have hlonger := hk (step :: path) fun s hs =>
        (List.mem_cons.1 hs).elim (· ▸ hproper) (hpath s)
      rw [List.reverse_cons, List.append_assoc]
      refine hlonger.mono fun v b h hfirst => ?_
      rw [← List.append_assoc]
      exact h hfirst

/-- Paths that are read are proper and were given by their bytes. -/
private theorem yields_readPaths (fuel : Nat) (taken : List Path) :
    (readPaths fuel taken).Yields depth fun u paths => ∃ path rest,
      paths = taken.reverse ++ path :: rest ∧ u = bytesFrom path rest ∧
        ∀ p ∈ path :: rest, p ≠ [] ∧ ∀ step ∈ p, step.IsProper := by
  induction fuel generalizing taken with
  | zero =>
    rw [readPaths]
    exact .throw _
  | succ fuel ih =>
    rw [readPaths]
    refine yields_readSteps_bind fun path hpath => ?_
    rw [List.reverse_nil, List.nil_append]
    cases hempty : path.isEmpty with
    | true => exact .throw _
    | false =>
      have hne : path ≠ [] := by simpa using hempty
      refine Reader.Yields.byte.bind ?_
      rintro _ delimiter rfl
      split
      · next hend =>
        refine .pure fun _ => ⟨path, [], List.reverse_cons, by rw [hend]; rfl, ?_⟩
        intro p hp
        obtain rfl := List.mem_singleton.1 hp
        exact ⟨hne, hpath⟩
      · next hseparator =>
        refine (ih (path :: taken)).mono ?_
        rintro v paths ⟨second, rest, rfl, rfl, hrest⟩ hfirst
        obtain rfl := (hfirst delimiter rfl).resolve_right hseparator
        refine ⟨path, second :: rest, by rw [List.reverse_cons, List.append_assoc]; rfl, rfl, ?_⟩
        intro p hp
        rcases List.mem_cons.1 hp with rfl | hp
        · exact ⟨hne, hpath⟩
        · exact hrest p hp

/-- A path set that is read is proper and was given by its bytes. -/
theorem yields_read :
    PathSet.read.Yields depth fun taken paths => bytes paths = .ok taken ∧ paths.IsProper := by
  intro c paths d hc hok
  have hread : (readPaths (c.remaining + 1) []).Yields depth fun taken paths =>
      bytes paths = .ok taken ∧ paths.IsProper := by
    refine (yields_readPaths _ _).mono ?_
    rintro _ _ ⟨path, rest, rfl, rfl, hproper⟩
    exact ⟨rfl, List.cons_ne_nil _ _, hproper⟩
  exact hread c paths d hc hok

end PathSet

/-! ### Plain form -/

namespace PathStep

private theorem member_eq_ok_iff {α : Type} {members : Members Json} {key : String}
    {convert : Json → Except Error α} {a : Option α} : member members key convert = .ok a ↔
      (Members.get? members key = none ∧ a = none) ∨
        ∃ j b, Members.get? members key = some j ∧ convert j = .ok b ∧ a = some b := by
  unfold member
  cases Members.get? members key with
  | none => simp [eq_comm]
  | some j =>
    simp only [reduceCtorEq, false_and, false_or, Option.some.injEq, map_eq_ok_iff]
    constructor
    · rintro ⟨b, hb, rfl⟩
      exact ⟨j, b, rfl, hb, rfl⟩
    · rintro ⟨_, b, rfl, hb, rfl⟩
      exact ⟨b, hb, rfl⟩

/-- A step of a plain value is proper. -/
theorem isProper_of_ofJson {book : AddressBook} {j : Json} {step : PathStep}
    (h : ofJson book j = .ok step) : step.IsProper := by
  unfold ofJson at h
  split at h
  · cases h
  · next members hmembers =>
    obtain ⟨account, -, h⟩ := bind_eq_ok_iff.1 h
    obtain ⟨currency, hcurrency, h⟩ := bind_eq_ok_iff.1 h
    obtain ⟨issuer, -, h⟩ := bind_eq_ok_iff.1 h
    dsimp only at h
    split at h
    · cases h
    · next hsome =>
      cases h
      refine ⟨?_, fun c hc => ?_⟩
      · simp only [← Option.not_isSome_iff_eq_none, Option.isNone_iff_eq_none] at hsome
        simp only
        by_contra hnone
        exact hsome (by simpa [not_or] using hnone)
      · obtain ⟨-, rfl⟩ | ⟨text, d, -, hd, rfl⟩ := member_eq_ok_iff.1 hcurrency
        · cases hc
        · cases hc
          exact Currency.isProper_of_ofJson hd

/-- The plain form of a proper step reads back. -/
theorem ofJson_toJson {book : AddressBook} (hbook : book.IsLawful) {step : PathStep}
    (h : step.IsProper) : ofJson book (step.toJson book) = .ok step := by
  obtain ⟨account, currency, issuer⟩ := step
  obtain ⟨hsome, hcurrency⟩ := h
  have hcurrency' : ∀ c ∈ currency, Currency.ofJson c.toJson = .ok c :=
    fun c hc => Currency.ofJson_toJson (hcurrency c hc)
  cases account <;> cases currency <;> cases issuer <;>
    simp_all [ofJson, toJson, Json.obj?, member, Members.get?_cons, Except.map, bind, Except.bind,
      pure, Except.pure, hbook.accountOfJson_accountToJson]

end PathStep

namespace PathSet

private theorem ne_nil_of_mapM {α β : Type} {f : α → Except Error β} {items : List α}
    {results : List β} (hitems : items ≠ []) (h : items.mapM f = .ok results) : results ≠ [] := by
  rintro rfl
  exact hitems (List.forall₂_nil_right_iff.1 (mapM_eq_ok_iff.1 h))

/-- A path of a plain value has steps, and these are proper. -/
private theorem proper_of_pathOfJson {book : AddressBook} {j : Json} {path : Path}
    (h : pathOfJson book j = .ok path) : path ≠ [] ∧ ∀ step ∈ path, step.IsProper := by
  unfold pathOfJson at h
  split at h
  · cases h
  · cases h
  · next steps hsteps hj =>
    refine ⟨ne_nil_of_mapM hsteps h, fun step hstep => ?_⟩
    obtain ⟨item, -, hitem⟩ := exists_of_mapM_eq_ok h hstep
    exact PathStep.isProper_of_ofJson hitem

/-- A path set of a plain value is proper. -/
theorem isProper_of_ofJson {book : AddressBook} {j : Json} {paths : PathSet}
    (h : ofJson book j = .ok paths) : paths.IsProper := by
  unfold ofJson at h
  split at h
  · cases h
  · cases h
  · next items hitems hj =>
    refine ⟨ne_nil_of_mapM hitems h, fun path hpath => ?_⟩
    obtain ⟨item, -, hitem⟩ := exists_of_mapM_eq_ok h hpath
    exact proper_of_pathOfJson hitem

private theorem pathOfJson_arr {book : AddressBook} (hbook : book.IsLawful) {path : Path}
    (hpath : path ≠ []) (hsteps : ∀ step ∈ path, step.IsProper) :
    pathOfJson book (.arr (path.map (PathStep.toJson book))) = .ok path := by
  unfold pathOfJson
  cases path with
  | nil => exact absurd rfl hpath
  | cons step path =>
    exact mapM_map_eq_ok fun s hs => PathStep.ofJson_toJson hbook (hsteps s hs)

/-- The plain form of a proper path set reads back. -/
theorem ofJson_toJson {book : AddressBook} (hbook : book.IsLawful) {paths : PathSet}
    (h : paths.IsProper) : ofJson book (paths.toJson book) = .ok paths := by
  unfold ofJson toJson
  cases paths with
  | nil => exact absurd rfl h.1
  | cons path paths =>
    exact mapM_map_eq_ok fun p hp => pathOfJson_arr hbook (h.2 p hp).1 (h.2 p hp).2

end PathSet

end FieldWire
