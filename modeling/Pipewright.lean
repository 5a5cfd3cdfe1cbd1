import Pipewright.Main
import Pipewright.Proofs.Completeness
import Pipewright.Proofs.Constants
import Pipewright.Proofs.Deferral
import Pipewright.Proofs.ImportBlock
import Pipewright.Proofs.Rollback
import Pipewright.Proofs.InFlight
import Pipewright.Proofs.Plans
import Pipewright.Proofs.Trials
import Pipewright.Proofs.Idempotence
import Pipewright.Proofs.Locality
import Pipewright.Proofs.Indentation
import Pipewright.Proofs.Generations
import Pipewright.Proofs.Stages
import Pipewright.Proofs.Declarations
import Pipewright.Proofs.Occurrences
import Pipewright.Proofs.Casts
import Pipewright.Proofs.ImportSink
import Pipewright.Proofs.LateValues
import Pipewright.Proofs.Assembly
import Pipewright.Proofs.CarriedImports
import Pipewright.Proofs.NeededImports
import Pipewright.Proofs.ImportLines
import Pipewright.Proofs.SpelledTypes
import Pipewright.Proofs.IndexedScope
import Pipewright.Proofs.Registration
import Pipewright.Proofs.Wildcards
import Pipewright.Proofs.ModuleNames
import Pipewright.Proofs.UniqueNames
import Pipewright.Proofs.NotGenerated
import Pipewright.Proofs.Outputs
import Pipewright.Proofs.Links
import Pipewright.Proofs.ClassConstants
import Pipewright.Proofs.FrameStart
import Pipewright.Proofs.Streaming
import Pipewright.Proofs.LeftMarkers
import Pipewright.Proofs.Building
import Pipewright.Proofs.CountingLoops
import Pipewright.Proofs.Suites
import Pipewright.Proofs.OptionLayers
import Pipewright.Proofs.Quotation
import Pipewright.Proofs.LiteralMarkers
import Pipewright.Proofs.Templates
import Pipewright.Proofs.PythonForms
import Pipewright.Proofs.CycleReports
import Pipewright.Proofs.NumberWords
import Pipewright.Proofs.IntegerLiterals
import Pipewright.Proofs.NumberTypes
import Pipewright.Proofs.ClassNames
