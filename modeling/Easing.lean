import Easing.Session
import Easing.Settings
import Easing.Source.Cycling
import Easing.Proofs.Definition.Consumption
import Easing.Proofs.Definition.FirstFault
import Easing.Proofs.Definition.Reading
import Easing.Proofs.Definition.RoundTrip
import Easing.Proofs.Settings.Seeds
import Easing.Proofs.Mapping.Interpolation
import Easing.Proofs.Number.Nearest
import Easing.Proofs.Number.Rounded
import Easing.Proofs.Session.Atomicity
import Easing.Proofs.Session.Independence
import Easing.Proofs.Session.Commutation
import Easing.Proofs.Session.Policy
import Easing.Proofs.Session.Sharing
import Easing.Proofs.Session.Strategies
import Easing.Proofs.Session.Containment
import Easing.Proofs.Session.Coordinates
import Easing.Proofs.Session.Tables
import Easing.Proofs.Session.Texts
import Easing.Proofs.Number.Guards
import Easing.Proofs.Expression.Faults
import Easing.Proofs.Mapping.Faults
import Easing.Proofs.Session.Faults
import Easing.Proofs.Session.UnitInterval
import Easing.Proofs.Expression.Composition
import Easing.Proofs.Source.Compilation
import Easing.Proofs.Number.Arithmetic
import Easing.Proofs.Definition.Idempotence
import Easing.Proofs.Mapping.Lookup
import Easing.Proofs.Range.Turns
import Easing.Proofs.Session.Lookups
import Easing.Proofs.Expression.Mean
import Easing.Proofs.Session.Blending
import Easing.Proofs.Mapping.Deviation
import Easing.Proofs.Mapping.Overflow
import Easing.Proofs.Number.Real
import Easing.Proofs.Transform.Powers
import Easing.Proofs.Number.Error
import Easing.Proofs.Range.Rounding
import Easing.Proofs.Transform.BreakPoints
import Easing.Proofs.Range.Rescaling
