import Pipewright.Pass.Graph

/-!
# Detection targets

Nodes that detect rectangles can publish them under labels. The first such node
gives the class two maps and their accessors, and every frame starts by clearing
the maps.
-/

namespace Pipewright

namespace Targets

def flag : String := "targetsEnabled"

structure Kind where
  map : Variable
  ty : Ty
  name : String
  parameter : String

def mapVariable (l : Language) (name : String) (ty : Ty) : Variable :=
  ⟨name, l.newInstance (Catalog.Java.hashMap l.stringType ty) []⟩

def rects (l : Language) : Kind :=
  ⟨mapVariable l "rectTargets" Catalog.OpenCv.rect, Catalog.OpenCv.rect, "RectTarget", "rect"⟩

def rotatedRects (l : Language) : Kind :=
  ⟨mapVariable l "rotRectTargets" Catalog.OpenCv.rotatedRect, Catalog.OpenCv.rotatedRect, "RotRectTarget", "rotRect"⟩

def synchronized : Modifiers := { isSynchronized := true }

def label (l : Language) : Parameter := { ty := l.stringType, name := "label" }

def clearing (l : Language) (s : Scope) : Scope :=
  s.method { visibility := .isPrivate, returns := l.voidType, name := "clearTargets", modifiers := synchronized } fun b =>
    (b.methodCall (rects l).map.reference "clear" []).methodCall (rotatedRects l).map.reference "clear" []

def adding (l : Language) (k : Kind) (s : Scope) : Scope :=
  let target : Parameter := { ty := k.ty, name := k.parameter }
  s.method
    { visibility := .isPrivate, returns := l.voidType, name := "add" ++ k.name, parameters := [label l, target]
      modifiers := synchronized } fun b =>
    b.methodCall k.map.reference "put" [(label l).reference, target.reference]

def getting (l : Language) (k : Kind) (s : Scope) : Scope :=
  s.method
    { visibility := .isPublic, returns := k.ty, name := "get" ++ k.name, parameters := [label l]
      modifiers := synchronized } fun b =>
    b.ret (some (l.cast (l.methodCallValue k.map.reference "get" k.ty [(label l).reference]) k.ty))

def gettingAll (l : Language) (k : Kind) (s : Scope) : Scope :=
  let targets : Variable := ⟨"targets", l.newInstance (Catalog.Java.arrayList k.ty) []⟩
  let entry := Variable.typed (Catalog.Java.mapEntry l.stringType k.ty) "namedTarget"
  let entries := l.methodCallValue k.map.reference "entrySet" (Catalog.Java.set entry.ty) []
  let key := l.methodCallValue entry.reference "getKey" l.stringType []
  let isMatch := l.methodCallValue key "startsWith" l.booleanType [(label l).reference]
  let value := l.methodCallValue entry.reference "getValue" k.ty []
  s.method
    { visibility := .isPublic, returns := Catalog.Java.list k.ty, name := "get" ++ k.name ++ "s"
      parameters := [label l], modifiers := synchronized } fun b =>
    let b := b.localVariable targets
    let b := b.foreach entry entries fun b =>
      b.ifThen isMatch fun b => b.methodCall targets.reference "add" [value]
    b.ret (some targets.reference)

def accessors (l : Language) (s : Scope) : Scope :=
  let s := clearing l s
  let s := adding l (rotatedRects l) (adding l (rects l) s)
  let s := gettingAll l (rects l) (getting l (rects l) s)
  gettingAll l (rotatedRects l) (getting l (rotatedRects l) s)

def addRect (label rect : Value) (s : Scope) : Scope := s.call "addRectTarget" [label, rect]

def addRotatedRect (label rect : Value) (s : Scope) : Scope := s.call "addRotRectTarget" [label, rect]

end Targets

def Gen.enableTargets {σ : Type} (node : NodeRef) : Gen σ Unit := do
  requireFeature node .classes
  if ← addFlag Targets.flag then
    let l ← language
    append (·.call "clearTargets" [])
    group fun s => (s.instanceVariable .isPrivate (Targets.rects l).map).instanceVariable .isPrivate
      (Targets.rotatedRects l).map
    inTarget .classEnd (append (Targets.accessors l))

end Pipewright
