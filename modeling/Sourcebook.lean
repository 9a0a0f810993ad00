import Sourcebook.Main
import Sourcebook.Proofs.Book.Conflicts
import Sourcebook.Proofs.Book.Telling
import Sourcebook.Proofs.Contents.Listing
import Sourcebook.Proofs.Publish.Attaching
import Sourcebook.Proofs.Publish.Sources
import Sourcebook.Proofs.Book.Includable
import Sourcebook.Proofs.Book.Rereading
import Sourcebook.Proofs.Publish.Again
import Sourcebook.Proofs.Publish.Obstruction
import Sourcebook.Proofs.Book.Snippets
import Sourcebook.Proofs.Publish.Reporting
import Sourcebook.Proofs.Contents.Ordered
import Sourcebook.Proofs.Publish.Shuffling
import Sourcebook.Proofs.Contents.Emptied
import Sourcebook.Proofs.Book.Markers
import Sourcebook.Proofs.Book.Options
import Sourcebook.Proofs.Book.Inert
import Sourcebook.Proofs.Publish.Grounding
import Sourcebook.Proofs.Page.Fences
import Sourcebook.Proofs.Book.Comments
import Sourcebook.Proofs.Book.Excluded
import Sourcebook.Proofs.Book.Ambiguous
import Sourcebook.Proofs.Book.Indentation
import Sourcebook.Proofs.Publish.Mounts
import Sourcebook.Proofs.Contents.Malformed
import Sourcebook.Proofs.Settings.Shapes
import Sourcebook.Proofs.Page.Titles
import Sourcebook.Proofs.Book.LineEnds
import Sourcebook.Proofs.Book.Groups
import Sourcebook.Proofs.Contents.Shared
import Sourcebook.Proofs.Disk.Shortening
import Sourcebook.Proofs.Contents.Spacing
