import Bunzip.Main
import Bunzip.Proofs.Format.Stream
import Bunzip.Proofs.Stream.PullPush
import Bunzip.Proofs.Locality.Source
import Bunzip.Proofs.Stream.Sessions
import Bunzip.Proofs.Stream.Footer
import Bunzip.Proofs.Stream.EndOfInput
import Bunzip.Proofs.Stream.Books
import Bunzip.Proofs.BitReader.Requests
import Bunzip.Proofs.Codes.Canonical
import Bunzip.Proofs.Format.Spelling
import Bunzip.Proofs.Block.Reuse
import Bunzip.Proofs.Command.Unzipping
import Bunzip.Proofs.Command.Reading
import Bunzip.Proofs.Stream.Checksums
import Bunzip.Proofs.Stream.Growth
import Bunzip.Proofs.Codes.Oversubscribed
import Bunzip.Proofs.Block.Draws
import Bunzip.Proofs.Block.Exhaustion
import Bunzip.Proofs.Stream.ShortSinks
import Bunzip.Proofs.Checksum.Detection
import Bunzip.Proofs.Codes.Grammar
import Bunzip.Proofs.Block.Failures
import Bunzip.Proofs.Format.Pieces
import Bunzip.Proofs.Codes.Turns
import Bunzip.Proofs.Format.Bitmap
import Bunzip.Proofs.Rotation.SingleCycle
import Bunzip.Proofs.Command.OutputPlace
import Bunzip.Proofs.Rotation.CountingSort
import Bunzip.Proofs.MoveToFront.Runs
