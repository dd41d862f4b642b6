import MailSieve.Main
import MailSieve.Outline
import MailSieve.Script.Equality
import MailSieve.Settings.Store
import MailSieve.Proofs.Interchange.Reread
import MailSieve.Proofs.Located.WellFormed
import MailSieve.Proofs.CommandLine.Generate
import MailSieve.Proofs.CommandLine.Verdict
import MailSieve.Proofs.Lookahead.Precedence
import MailSieve.Proofs.Nesting.Deepens
import MailSieve.Proofs.Nesting.Limit
import MailSieve.Proofs.Alternatives.Exact
import MailSieve.Proofs.Located.Place
import MailSieve.Proofs.Located.Slices
import MailSieve.Proofs.Lexing.Tiled
import MailSieve.Proofs.Lexing.Resumed
import MailSieve.Proofs.Capability.Reported
import MailSieve.Proofs.CommandLine.Atomic
import MailSieve.Proofs.Lexing.Strings
import MailSieve.Proofs.Lexing.Literal
import MailSieve.Proofs.Settings.Stored
import MailSieve.Proofs.Json.Fields
import MailSieve.Proofs.Lexing.Number
import MailSieve.Proofs.Located.Found
import MailSieve.Proofs.Tags.Exchange
import MailSieve.Proofs.Tags.Order
import MailSieve.Proofs.Lookahead.Unterminated
import MailSieve.Proofs.Lexing.Unclosed
import MailSieve.Proofs.Alternatives.Arranged
import MailSieve.Proofs.Located.Caret
import MailSieve.Proofs.Canonical.Rows
