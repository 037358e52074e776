import Lisplet.Token.Scan
import Lisplet.Form
import Lisplet.Form.Parse
import Lisplet.Code
import Lisplet.Code.Render
import Lisplet.Lowering
import Lisplet.Json
import Lisplet.Json.Encode
import Lisplet.Compile
import Lisplet.Toml.Instant
import Lisplet.Toml.Value
import Lisplet.Toml.Merge
import Lisplet.Toml.Quoted
import Lisplet.Toml.Scalar
import Lisplet.Toml.Document
import Lisplet.Files
import Lisplet.Settings
import Lisplet.Settings.Load
import Lisplet.Command.Arguments
import Lisplet.Command.Run
import Lisplet.Main
import Lisplet.Proofs.Token.Munch
import Lisplet.Proofs.Token.Relocation
import Lisplet.Proofs.Form.Spelling
import Lisplet.Proofs.Form.Grammar
import Lisplet.Proofs.Form.Diagnosis
import Lisplet.Proofs.Form.Nesting
import Lisplet.Proofs.Form.Pruning
import Lisplet.Proofs.Form.Text
import Lisplet.Proofs.Form.Readability
import Lisplet.Proofs.Form.Relocation
import Lisplet.Proofs.Compile.Stages
import Lisplet.Proofs.Compile.Concatenation
import Lisplet.Proofs.Token.Position
import Lisplet.Proofs.Compile.Location
import Lisplet.Proofs.Compile.Log
import Lisplet.Proofs.Command.Refinement
import Lisplet.Proofs.Settings.Reading
import Lisplet.Proofs.Settings.Layers
import Lisplet.Proofs.Token.Offence
import Lisplet.Proofs.Compile.Placement
import Lisplet.Proofs.Code.Wrapping
import Lisplet.Proofs.Code.Loss
import Lisplet.Proofs.Code.Descent
import Lisplet.Proofs.Code.Fault
import Lisplet.Proofs.Code.Notice
import Lisplet.Proofs.Compile.Output
import Lisplet.Proofs.Toml.Settling
import Lisplet.Proofs.Toml.Distinct
import Lisplet.Proofs.Toml.Documents
import Lisplet.Proofs.Toml.Path
import Lisplet.Proofs.Settings.Skipping
import Lisplet.Proofs.Settings.Routes
import Lisplet.Proofs.Json.Reading
import Lisplet.Proofs.Json.Decode
