import Pipewright.Nodes.Builtin
import Pipewright.Pass.Build

/-!
# The demonstration graph

Finds the rectangles around yellow regions. The nodes to generate are listed out
of order on purpose: each pulls in what it reads, and the output goes last.
-/

namespace Pipewright.Nodes

def yellow : ScalarRange :=
  let channel : Interval := ⟨⟨0x4059000000000000⟩, ⟨0x406FE00000000000⟩⟩
  ⟨⟨⟨0x4034000000000000⟩, ⟨0x4040000000000000⟩⟩, channel, channel, ⟨⟨0⟩, ⟨0⟩⟩⟩

def demoNodes : List (Nat × Builtin) :=
  [(0, .input), (1, .convert 0 .hsv), (2, .threshold 1 yellow), (3, .contours 2),
    (4, .boundingRects 3 (some "yellow")), (5, .output 1)]

def demoOrder (l : Language) : List Nat :=
  [5, if boundingRectsLanguages.contains l then 4 else 3]

def buildDemo (options : BuildOptions) : Except BuildError Build :=
  ((Builtin.graph demoNodes).build options (demoOrder options.language) ()).1

end Pipewright.Nodes
