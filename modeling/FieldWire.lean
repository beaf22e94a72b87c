import FieldWire.Codec.Session
import FieldWire.Config.Environment
import FieldWire.Config.Validation
import FieldWire.Proofs.Wire.Reading
import FieldWire.Proofs.Codec.Safety
import FieldWire.Proofs.Wire.Writing
import FieldWire.Proofs.Wire.Appending
import FieldWire.Proofs.Amount.Basic
import FieldWire.Proofs.Codec.Reencoding
import FieldWire.Proofs.Codec.Canonicalization
import FieldWire.Proofs.Codec.Signing
import FieldWire.Proofs.Codec.KeyOrder
import FieldWire.Proofs.Plain.Complete
import FieldWire.Proofs.Codec.Projection
import FieldWire.Proofs.Codec.Unsigned
import FieldWire.Proofs.Codec.FieldRoundTrip
import FieldWire.Proofs.Registry.Lookup
import FieldWire.Proofs.Amount.Rendering
import FieldWire.Proofs.Codec.EndMarkers
import FieldWire.Proofs.Codec.WrittenHeaders
import FieldWire.Proofs.Amount.Layout
import FieldWire.Proofs.Currency
import FieldWire.Proofs.Amount.Forms
import FieldWire.Proofs.PathSet.Framing
import FieldWire.Proofs.Codec.NestingLimit
import FieldWire.Proofs.Value.Prefixes
import FieldWire.Proofs.Plain.Tags
import FieldWire.Proofs.Codec.NamedValues
import FieldWire.Proofs.Codec.Accounting
import FieldWire.Proofs.Codec.RepeatedFields
import FieldWire.Proofs.Codec.AddressBooks
import FieldWire.Proofs.Wire.Spelling
