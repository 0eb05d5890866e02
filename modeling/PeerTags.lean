import PeerTags.Options.CommandLine
import PeerTags.Options.FromJson
import PeerTags.Session.Report
import PeerTags.Proofs.Session.Direct
import PeerTags.Proofs.Session.Refinement
import PeerTags.Proofs.Manager.Calls
import PeerTags.Proofs.Tagger.Reactions
import PeerTags.Proofs.Session.Tracking
import PeerTags.Proofs.Session.Rejoin
import PeerTags.Proofs.Session.View
import PeerTags.Proofs.Session.Reordering
import PeerTags.Proofs.Session.Interference
import PeerTags.Proofs.Session.Turns
import PeerTags.Proofs.Session.TrackedTopics
import PeerTags.Proofs.Tagger.Accounts
import PeerTags.Proofs.Session.Accounts
import PeerTags.Proofs.Session.Ownership
import PeerTags.Proofs.Session.Scores
import PeerTags.Proofs.Manager.Footprint
import PeerTags.Proofs.Session.Footprint
import PeerTags.Proofs.Manager.Removal
import PeerTags.Proofs.Session.Ranking
import PeerTags.Proofs.Session.Refusals
import PeerTags.Proofs.Manager.Intervals
import PeerTags.Proofs.Manager.CrossedBounds
import PeerTags.Proofs.Options.CommandLine
import PeerTags.Proofs.Session.Credits
import PeerTags.Proofs.Session.Clearing
import PeerTags.Proofs.Options.Spelling
import PeerTags.Proofs.Options.Peers
import PeerTags.Proofs.Manager.Batches
import PeerTags.Proofs.Manager.LinearDecay
import PeerTags.Proofs.Options.JsonForms
