import LdapFilter.Filter.Equality
import LdapFilter.Main
import LdapFilter.Proofs.Query.Denotes
import LdapFilter.Proofs.Query.Compile
import LdapFilter.Proofs.Query.Acceptance
import LdapFilter.Proofs.Reading.Basic
import LdapFilter.Proofs.Reading.Grammar
import LdapFilter.Proofs.Reading.Exact
import LdapFilter.Proofs.AssertionValue
import LdapFilter.Proofs.Reading.Render
import LdapFilter.Proofs.Query.Meaning
import LdapFilter.Proofs.Json
import LdapFilter.Proofs.Keyword
import LdapFilter.Proofs.Query.Measures
import LdapFilter.Proofs.WriteBack.Merge
import LdapFilter.Proofs.WriteBack.Member
import LdapFilter.Proofs.WriteBack.RoundTrip
import LdapFilter.Proofs.Filter.Built
import LdapFilter.Proofs.Filter.Size
import LdapFilter.Proofs.Filter.Shape
import LdapFilter.Proofs.WriteBack.Lossless
import LdapFilter.Proofs.Query.Guards
import LdapFilter.Proofs.Query.Limits
import LdapFilter.Proofs.Query.Run
import LdapFilter.Proofs.Query.Escaping
import LdapFilter.Proofs.Json.Token
import LdapFilter.Proofs.Json.Text
import LdapFilter.Proofs.WriteBack.Nesting
import LdapFilter.Proofs.CommandLine.Arguments
import LdapFilter.Proofs.CommandLine.Normal
import LdapFilter.Proofs.WriteBack.Sharing
import LdapFilter.Proofs.Query.Confinement
import LdapFilter.Proofs.Reading.NoneOf
import LdapFilter.Proofs.CommandLine.Items
import LdapFilter.Proofs.CommandLine.Outcome
import LdapFilter.Proofs.Query.Congruence
import LdapFilter.Proofs.Query.Rewording
import LdapFilter.Proofs.Attribute
import LdapFilter.Proofs.Json.Front
import LdapFilter.Proofs.Query.Mask
import LdapFilter.Proofs.Query.Decoding
