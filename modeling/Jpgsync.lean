import Jpgsync.Lib.StepSystem
import Jpgsync.Lib.Fifo
import Jpgsync.Lib.ByteBits
import Jpgsync.ExifHash
import Jpgsync.Pipeline.Progress
import Jpgsync.Offer.Agreement
import Jpgsync.Update
import Jpgsync.Storage
import Jpgsync.Protocol
import Jpgsync.Upload
import Jpgsync.Peer
import Jpgsync.Download.Moves
import Jpgsync.Upload.Moves
import Jpgsync.Pipeline.Batches
import Jpgsync.Update.Bounds
import Jpgsync.Peer.Sound
import Jpgsync.Peer.Moves
import Jpgsync.Peer.Index
import Jpgsync.Peer.Environment
import Jpgsync.Session.Delivering
import Jpgsync.Session.Convergence
import Jpgsync.Session.Rounds
import Jpgsync.Download.Progress
import Jpgsync.Session.Truncation
import Jpgsync.Offer.Decoding
import Jpgsync.Offer.Batching
import Jpgsync.Update.Transports
import Jpgsync.ExifHasher.ExifData
import Jpgsync.ExifHasher.HashExif
import Jpgsync.Framing.RoundTrip
import Jpgsync.Peer.Images
import Jpgsync.Handshake.Progress
import Jpgsync.Launch.Torn
import Jpgsync.JpgsyncOptions.Grammar
import Jpgsync.Protocol.Messages
import Jpgsync.ExifHasher.Duplicates
import Jpgsync.Launch.Command
import Jpgsync.Peer.Inside
import Jpgsync.Lib.Termination
import Jpgsync.Lib.Words
import Jpgsync.Pipeline.Work
import Jpgsync.Session.Deadlock
import Jpgsync.Session.Processes
import Jpgsync.Session.Termination
import Jpgsync.Session.Heard
import Jpgsync.Session.Settled
import Jpgsync.Session.Union
import Jpgsync.Session.Completion
import Jpgsync.Session.Traffic
import Jpgsync.Launch.Capture
import Jpgsync.ExifHasher.Programs
import Jpgsync.Session.Listing
import Jpgsync.Peer.Strangers
import Jpgsync.Session.HangUp
import Jpgsync.ProgramOptions.Errors
import Jpgsync.Launch.Generations
import Jpgsync.Launch.Status
import Jpgsync.Launch.Synchronise
