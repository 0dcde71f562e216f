import MailPattern.Engine.Build
import MailPattern.Options.Decode
import MailPattern.Proofs.Address.Alone
import MailPattern.Proofs.Address.Compiled
import MailPattern.Proofs.Address.Deciding
import MailPattern.Proofs.Address.Labels
import MailPattern.Proofs.Address.Literals
import MailPattern.Proofs.Address.Longest
import MailPattern.Proofs.Address.Lookup
import MailPattern.Proofs.Address.Recovering
import MailPattern.Proofs.Address.Relisting
import MailPattern.Proofs.Address.Scanning
import MailPattern.Proofs.Address.Shape
import MailPattern.Proofs.Address.Usernames
import MailPattern.Proofs.Address.Widening
import MailPattern.Proofs.Engine.Anchoring
import MailPattern.Proofs.Engine.Building
import MailPattern.Proofs.Engine.Caseless
import MailPattern.Proofs.Engine.GivingUp
import MailPattern.Proofs.Engine.Latch
import MailPattern.Proofs.Engine.Reporting
import MailPattern.Proofs.Engine.Transparency
import MailPattern.Proofs.Options.Decoding
import MailPattern.Proofs.Options.Merging
import MailPattern.Proofs.Pattern.Images
