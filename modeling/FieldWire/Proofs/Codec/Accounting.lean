import FieldWire.Codec.Session
import FieldWire.Proofs.Plain.Complete

/-!
# What the counters tell

The counters are moved in several places: before an encoding for a signature, after every encoding
and after every decoding. What they tell is defined here without them, from a *log* of the calls and
what each of them yielded: `CallLog.tally` counts the entries of each sort and the bytes in all of
them. `Codec.run_perform` is the step. A call yields what its codec alone determines
(`Codec.answer`), and it adds to the counters the tally of its own entry, no matter how early it
fails. Tallies of a log add up (`CallLog.tally_append`), so calls in a row add the tally of their
log: `Codec.run_performEach` for calls on any codecs, since all codecs share the counters, and
`Codec.getElem?_performAll` for the counters after each call on one codec.

A text that is not hexadecimal is the input of no decoding: to decode it yields an error, and it is
the only call that moves no counter.
-/

namespace FieldWire

/-! ### Calls -/

namespace Call

/-- The call encodes something. -/
def encodes : Call → Bool
  | decode _ | decodeHex _ => false
  | _ => true

/-- The call encodes something for a signature. -/
def signs : Call → Bool
  | encodeForSigning _ | encodeForMultisigning .. | encodeForSigningClaim _ => true
  | _ => false

/-- The bytes that the call decodes. A text that is not hexadecimal stands for none. -/
def input? : Call → Option (List UInt8)
  | decode bytes => some bytes
  | decodeHex text => (Hex.decode text).toOption
  | _ => none

end Call

/-- The bytes that an answer gives, as they are or as hexadecimal text. -/
def Answer.octets : Answer → List UInt8
  | .bytes octets => octets
  | .hex text => (Hex.decode text).toOption.getD []
  | .plain _ => []

/-- What a call yields, without the counters. -/
def Codec.answer (codec : Codec) : Call → Except Error Answer
  | .encode j onlySigning => (codec.encode j onlySigning).map .bytes
  | .encodeHex j onlySigning => (codec.encodeHex j onlySigning).map .hex
  | .decode bytes => (codec.decode bytes).map .plain
  | .decodeHex text => (codec.decodeHex text).map .plain
  | .encodeForSigning j => (codec.signingData j).map .bytes
  | .encodeForMultisigning j signer => (codec.multisigningData j signer).map .bytes
  | .encodeForSigningClaim j => (codec.claimData j).map .bytes

/-! ### Tallies -/

/-- Calls with what they yielded. -/
abbrev CallLog := List (Call × Except Error Answer)

namespace CallLog

/-- The bytes that a call encoded. -/
def encoded (entry : Call × Except Error Answer) : List UInt8 :=
  if entry.1.encodes then (entry.2.toOption.map Answer.octets).getD [] else []

/-- The bytes that a call decoded. -/
def decoded (entry : Call × Except Error Answer) : List UInt8 :=
  if entry.2.isOk then entry.1.input?.getD [] else []

/-- The counts of a log. -/
def tally (log : CallLog) : Metrics where
  encodesTotal := .ofNat (log.countP fun entry => entry.1.encodes)
  encodesFailed := .ofNat (log.countP fun entry => entry.1.encodes && !entry.2.isOk)
  bytesEncoded := .ofNat (log.flatMap encoded).length
  signingEncodes := .ofNat (log.countP fun entry => entry.1.signs)
  decodesTotal := .ofNat (log.countP fun entry => entry.1.input?.isSome)
  decodesFailed := .ofNat (log.countP fun entry => entry.1.input?.isSome && !entry.2.isOk)
  bytesDecoded := .ofNat (log.flatMap decoded).length

end CallLog

namespace Metrics

/-- Adds counters one by one. -/
instance : Add Metrics where
  add m n :=
    ⟨m.encodesTotal + n.encodesTotal, m.encodesFailed + n.encodesFailed,
      m.bytesEncoded + n.bytesEncoded, m.signingEncodes + n.signingEncodes,
      m.decodesTotal + n.decodesTotal, m.decodesFailed + n.decodesFailed,
      m.bytesDecoded + n.bytesDecoded⟩

theorem add_def (m n : Metrics) :
    m + n = ⟨m.encodesTotal + n.encodesTotal, m.encodesFailed + n.encodesFailed,
      m.bytesEncoded + n.bytesEncoded, m.signingEncodes + n.signingEncodes,
      m.decodesTotal + n.decodesTotal, m.decodesFailed + n.decodesFailed,
      m.bytesDecoded + n.bytesDecoded⟩ :=
  rfl

theorem add_assoc (m n k : Metrics) : m + n + k = m + (n + k) := by
  simp only [add_def, UInt64.add_assoc]

theorem zero_add (m : Metrics) : zero + m = m := by
  simp only [add_def, zero, UInt64.zero_add]

theorem add_zero (m : Metrics) : m + zero = m := by
  simp only [add_def, zero, UInt64.add_zero]

end Metrics

namespace CallLog

theorem tally_nil : tally [] = .zero := rfl

/-- The counts of two logs add up, overflows included. -/
theorem tally_append (log rest : CallLog) : tally (log ++ rest) = tally log + tally rest := by
  simp only [tally, Metrics.add_def, List.countP_append, List.flatMap_append, List.length_append,
    UInt64.ofNat_add]

theorem tally_cons (entry : Call × Except Error Answer) (log : CallLog) :
    tally (entry :: log) = tally [entry] + tally log :=
  tally_append [entry] log

section Entry

variable {call : Call} {wrap : List UInt8 → Answer} (m : Metrics)

/-- An encoding that is not for a signature is counted once, with its outcome. -/
theorem add_tally_encoding (hencodes : call.encodes = true) (hsigns : call.signs = false)
    (hinput : call.input? = none) (hwrap : ∀ bytes, (wrap bytes).octets = bytes)
    (result : Except Error (List UInt8)) :
    m + tally [(call, result.map wrap)] = m.encodeFinished (result.toOption.map List.length) := by
  cases result <;> simp [tally, encoded, decoded, Metrics.add_def, Metrics.encodeFinished,
    Except.isOk, Except.toBool, Except.toOption, Except.map, hencodes, hsigns, hinput, hwrap]

/-- An encoding for a signature is counted as such too. -/
theorem add_tally_signing (hencodes : call.encodes = true) (hsigns : call.signs = true)
    (hinput : call.input? = none) (result : Except Error (List UInt8)) :
    m + tally [(call, result.map .bytes)] =
      m.signingEncode.encodeFinished (result.toOption.map List.length) := by
  cases result <;> simp [tally, encoded, decoded, Metrics.add_def, Metrics.encodeFinished,
    Metrics.signingEncode, Except.isOk, Except.toBool, Except.toOption, Except.map, Answer.octets,
    hencodes, hsigns, hinput]

/-- A decoding is counted once, with its outcome. -/
theorem add_tally_decoding (hencodes : call.encodes = false) (hsigns : call.signs = false)
    {input : List UInt8} (hinput : call.input? = some input) (result : Except Error Json) :
    m + tally [(call, result.map .plain)] = m.decodeFinished input.length result.isOk := by
  cases result <;> simp [tally, encoded, decoded, Metrics.add_def, Metrics.decodeFinished,
    Except.isOk, Except.toBool, Except.map, hencodes, hsigns, hinput]

/-- A call that neither encodes nor has an input is not counted. -/
theorem add_tally_uncounted (hencodes : call.encodes = false) (hsigns : call.signs = false)
    (hinput : call.input? = none) (result : Except Error Answer) : m + tally [(call, result)] = m := by
  simp [tally, encoded, decoded, Metrics.add_def, hencodes, hsigns, hinput]

end Entry

end CallLog

namespace Codec

open CallLog

variable (codec : Codec)

theorem encodeHex_eq_map (j : Json) (onlySigning : Bool) :
    codec.encodeHex j onlySigning = (codec.encode j onlySigning).map Hex.encode := by
  rw [encodeHex]
  cases codec.encode j onlySigning <;> rfl

/-- A call yields its answer and adds the counts of its own entry. -/
theorem run_perform (call : Call) (m : Metrics) :
    (codec.perform call).run m = (codec.answer call, m + tally [(call, codec.answer call)]) := by
  cases call with
  | encode j onlySigning =>
    rw [answer, add_tally_encoding m rfl rfl rfl fun _ => rfl]
    rfl
  | encodeHex j onlySigning =>
    have hhex : codec.answer (.encodeHex j onlySigning) =
        (codec.encode j onlySigning).map fun bytes => .hex (Hex.encode bytes) := by
      rw [answer, encodeHex_eq_map]
      cases codec.encode j onlySigning <;> rfl
    rw [hhex, add_tally_encoding m rfl rfl rfl fun bytes => by
      simp [Answer.octets, Except.toOption]]
    rfl
  | decode bytes =>
    rw [answer, add_tally_decoding m rfl rfl rfl]
    rfl
  | decodeHex text =>
    rw [answer, perform, decodeHex]
    cases htext : Hex.decode text with
    | error fault =>
      rw [add_tally_uncounted m rfl rfl (by rw [Call.input?, htext]; rfl)]
      rfl
    | ok bytes =>
      have hdecode : ((Except.ok bytes : Except Hex.Fault (List UInt8)).mapError .invalidHex >>=
          codec.decode) = codec.decode bytes := rfl
      rw [hdecode, add_tally_decoding m rfl rfl (by rw [Call.input?, htext]; rfl)]
      rfl
  | encodeForSigning j =>
    rw [answer, add_tally_signing m rfl rfl rfl]
    rfl
  | encodeForMultisigning j signer =>
    rw [answer, add_tally_signing m rfl rfl rfl]
    rfl
  | encodeForSigningClaim j =>
    rw [answer, add_tally_signing m rfl rfl rfl]
    rfl

/-! ### Calls in a row -/

/-- Calls on codecs with what they yield. -/
def logOf (uses : List (Codec × Call)) : CallLog :=
  uses.map fun use => (use.2, use.1.answer use.2)

theorem tally_logOf_cons (use : Codec × Call) (rest : List (Codec × Call)) :
    tally (logOf (use :: rest)) = tally [(use.2, use.1.answer use.2)] + tally (logOf rest) :=
  tally_cons _ _

/-- Performs calls on codecs, all of which move the same counters. -/
def performEach (uses : List (Codec × Call)) : Counted (List (Except Error Answer)) :=
  uses.mapM fun use => use.1.perform use.2

/-- Calls in a row yield their answers and add the counts of their log. -/
theorem run_performEach (uses : List (Codec × Call)) (m : Metrics) :
    (performEach uses).run m = ((logOf uses).map Prod.snd, m + tally (logOf uses)) := by
  induction uses generalizing m with
  | nil =>
    rw [logOf, List.map_nil, tally_nil, Metrics.add_zero]
    rfl
  | cons use rest ih =>
    have hstep : (performEach (use :: rest)).run m =
        (((use.1.perform use.2).run m).1 ::
            ((performEach rest).run ((use.1.perform use.2).run m).2).1,
          ((performEach rest).run ((use.1.perform use.2).run m).2).2) := by
      rw [performEach, List.mapM_cons]
      rfl
    rw [hstep, run_perform, ih, Metrics.add_assoc, ← tally_logOf_cons]
    rfl

/-- The counters after each call on one codec are the counts of the calls up to it. -/
theorem getElem?_performAll (calls : List Call) (m : Metrics) (i : Nat) :
    (codec.performAll calls m)[i]? = calls[i]?.map fun call =>
      (codec.answer call, m + tally (logOf ((calls.take (i + 1)).map (codec, ·)))) := by
  induction calls generalizing m i with
  | nil => rfl
  | cons call rest ih =>
    have hstep : codec.performAll (call :: rest) m = (codec.answer call,
        m + tally [(call, codec.answer call)]) ::
          codec.performAll rest (m + tally [(call, codec.answer call)]) := by
      rw [performAll, run_perform]
    rw [hstep]
    cases i with
    | zero => rfl
    | succ i =>
      rw [List.getElem?_cons_succ, ih, List.getElem?_cons_succ, List.take_succ_cons, List.map_cons]
      simp only [tally_logOf_cons, Metrics.add_assoc]

/-- **The counters account for every call exactly once.** Calls on any codecs, started with the
counters at zero, leave them at the counts of their log, modulo 2⁶⁴: the encodings with those that
failed, those for signatures and the bytes of the others, and likewise the decodings. To decode a
text that is not hexadecimal moves no counter. -/
theorem run_performEach_zero (uses : List (Codec × Call)) :
    (performEach uses).run .zero = ((logOf uses).map Prod.snd, tally (logOf uses)) ∧
      ∀ (codec : Codec) (text : String) (fault : Hex.Fault), Hex.decode text = .error fault →
        ∀ m, (codec.perform (.decodeHex text)).run m = (.error (.invalidHex fault), m) := by
  constructor
  · rw [run_performEach, Metrics.zero_add]
  · intro codec text fault htext m
    rw [perform, htext]
    rfl

end Codec

namespace Transfer

/-- A transfer that has no more than a tag. -/
def tag : Json := .obj [("SourceTag", .nat 7)]

/-- Calls on a codec for transfers, and a last one on a codec for fewer bytes. -/
def calls : List (Codec × Call) :=
  [.encode tag false, .encodeHex tag true, .encodeForSigning tag, .encodeForSigning .null,
    .encodeForMultisigning tag "0", .encodeForSigningClaim (.obj []),
    .decode [0x23, 0, 0, 0, 7], .decodeHex "2300000007", .decodeHex "23", .decodeHex "0"].map
      (Codec.ofRegistry registry, ·) ++
    [(⟨registry, .hex, defaultMaxDepth, 4⟩, .decode [0x23, 0, 0, 0, 7])]

end Transfer

/-- Of eleven calls three encodings and two decodings succeed, and half a byte is not counted. -/
theorem Codec.run_performEach_calls :
    ((performEach Transfer.calls).run .zero).1.map Except.isOk =
        [true, true, true, false, false, false, true, true, false, false, false] ∧
      ((performEach Transfer.calls).run .zero).2 = ⟨6, 3, 19, 4, 4, 2, 10⟩ ∧
      Hex.decode "0" = .error .oddLength ∧
      ∀ m, ((ofRegistry Transfer.registry).perform (.decodeHex "0")).run m =
        (.error (.invalidHex .oddLength), m) := by
  obtain ⟨hrun, huncounted⟩ := run_performEach_zero Transfer.calls
  rw [hrun]
  exact ⟨by decide +kernel, by decide +kernel, rfl, huncounted _ "0" .oddLength rfl⟩

end FieldWire
