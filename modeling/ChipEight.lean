import ChipEight.Main
import ChipEight.Proofs.Session.Resumption
import ChipEight.Proofs.Session.History
import ChipEight.Proofs.Machine.Effect
import ChipEight.Proofs.Machine.Loading
import ChipEight.Proofs.Reachable
import ChipEight.Proofs.Machine.Bounds
import ChipEight.Proofs.Machine.Interleaving
import ChipEight.Proofs.Machine.KeyWait
import ChipEight.Proofs.CallStack
import ChipEight.Proofs.Encoding
import ChipEight.Proofs.Decoding
import ChipEight.Proofs.Machine.Standstill
import ChipEight.Proofs.Machine.Chronicle
import ChipEight.Proofs.Machine.CallMatching
import ChipEight.Proofs.Machine.LastWriter
import ChipEight.Proofs.Listing.Execution
import ChipEight.Proofs.Numeral
import ChipEight.Proofs.CommandLine.Request
import ChipEight.Proofs.Listing.Assembly
import ChipEight.Proofs.Listing.RoundTrip
import ChipEight.Proofs.Listing.Layout
import ChipEight.Proofs.Session.Slices
import ChipEight.Proofs.Machine.ScreenFlag
import ChipEight.Proofs.Session.Hosting
import ChipEight.Proofs.Session.RandomDraws
import ChipEight.Proofs.Guarded.Domain
import ChipEight.Proofs.Guarded.Instruction
import ChipEight.Proofs.Guarded.Storage
import ChipEight.Proofs.Guarded.Screen
import ChipEight.Proofs.Guarded.Machine
import ChipEight.Proofs.Guarded.Listing
import ChipEight.Proofs.Guarded.Session
import ChipEight.Proofs.Session.Halting
import ChipEight.Proofs.Machine.Footprint
import ChipEight.Proofs.Machine.Commutation
import ChipEight.Proofs.Session.Correspondence
import ChipEight.Proofs.Session.Unread
import ChipEight.Proofs.Session.Log
import ChipEight.Proofs.Machine.Checks
import ChipEight.Proofs.Screen.Coverage
import ChipEight.Proofs.Screen.Picture
import ChipEight.Proofs.Screen.Masks
import ChipEight.Proofs.Screen.Addressing
import ChipEight.Proofs.Machine.Drawing
import ChipEight.Proofs.Machine.ByteDrawing
import ChipEight.Proofs.Machine.Redrawing
import ChipEight.Proofs.Session.WatchedWait
import ChipEight.Proofs.Machine.DrawingOrder
import ChipEight.Proofs.CommandLine.Transcript
import ChipEight.Proofs.CommandLine.Answer
import ChipEight.Proofs.Machine.Flow
import ChipEight.Proofs.Machine.Arithmetic
import ChipEight.Proofs.Machine.Frame
import ChipEight.Proofs.Machine.SavedRegisters
