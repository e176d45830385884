import HackVM.Main
import HackVM.Session
import HackVM.Machine.Probe
import HackVM.Proofs.Layout
import HackVM.Proofs.Legibility
import HackVM.Proofs.Execution
import HackVM.Proofs.StackMachine
import HackVM.Proofs.Blocks
import HackVM.Proofs.Scratch
import HackVM.Proofs.Simulation
import HackVM.Proofs.Frames
import HackVM.Proofs.Nesting
import HackVM.Proofs.Collisions
import HackVM.Proofs.Acceptance
import HackVM.Proofs.Grammar
import HackVM.Proofs.Typesetting
import HackVM.Proofs.Freshness
import HackVM.Proofs.Statics
import HackVM.Proofs.LineByLine
import HackVM.Proofs.Faults
import HackVM.Proofs.Annotation
import HackVM.Proofs.Streaming
import HackVM.Proofs.Rejection
import HackVM.Proofs.Reproduction
import HackVM.Proofs.Renumbering
import HackVM.Proofs.SignedOrder
import HackVM.Proofs.Parking
import HackVM.Proofs.LabelAddresses
import HackVM.Proofs.Concatenation
