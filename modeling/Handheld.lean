import Handheld.Code.Assembly
import Handheld.Code.Instr
import Handheld.Code.Layout
import Handheld.Code.Lowering
import Handheld.Code.Program
import Handheld.Device.Keys
import Handheld.Device.Random
import Handheld.Device.Recorder
import Handheld.Device.Screen
import Handheld.Diagnostic
import Handheld.Machine.Arithmetic
import Handheld.Machine.Device
import Handheld.Machine.Memory
import Handheld.Machine.Run
import Handheld.Machine.Stack
import Handheld.Machine.Step
import Handheld.Main
import Handheld.Proofs.Code.Labels
import Handheld.Proofs.Code.Patching
import Handheld.Proofs.Code.Relocation
import Handheld.Proofs.Device.Bindings
import Handheld.Proofs.Device.Holding
import Handheld.Proofs.Drawing.Circles
import Handheld.Proofs.Drawing.Pictures
import Handheld.Proofs.Drawing.Rectangles
import Handheld.Proofs.Drawing.Safety
import Handheld.Proofs.Drawing.Shifts
import Handheld.Proofs.Meaning.Exactness
import Handheld.Proofs.Meaning.Increments
import Handheld.Proofs.Meaning.Simulation
import Handheld.Proofs.Meaning.Stores
import Handheld.Proofs.Reading.Joining
import Handheld.Proofs.Reading.Printing
import Handheld.Proofs.Reading.Progress
import Handheld.Proofs.Reading.Respelling
import Handheld.Proofs.Reading.Spacing
import Handheld.Proofs.Reading.Terminators
import Handheld.Proofs.Reading.Trivia
import Handheld.Proofs.Run.Arithmetic
import Handheld.Proofs.Run.Control
import Handheld.Proofs.Run.Counting
import Handheld.Proofs.Run.Course
import Handheld.Proofs.Run.Faults
import Handheld.Proofs.Run.Frames
import Handheld.Proofs.Run.Hosting
import Handheld.Proofs.Run.Reports
import Handheld.Proofs.Run.Session
import Handheld.Proofs.Run.Times
import Handheld.Proofs.Run.Tracing
import Handheld.Shell.Arguments
import Handheld.Shell.Messages
import Handheld.Shell.Respond
import Handheld.Shell.Transcript
import Handheld.Source.Lexer
import Handheld.Source.Span
import Handheld.Source.Token
import Handheld.Text.Aligned
import Handheld.Text.Lines
import Handheld.Text.Outline
import Handheld.Text.Printable
import Handheld.Text.Quoted
import Handheld.Text.Space
import Handheld.Text.Unassigned
import Handheld.Tree.Basic
import Handheld.Tree.Outline
import Handheld.Tree.Parser
