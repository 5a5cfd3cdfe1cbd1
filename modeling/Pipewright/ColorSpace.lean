/-!
# Color spaces

The color spaces of an image and the names that conversion constants give them.
-/

namespace Pipewright

inductive ColorSpace where
  | rgb | rgba | bgr | hsv | yCrCb | lab | gray
deriving DecidableEq, Repr, Inhabited

namespace ColorSpace

def all : List ColorSpace := [rgb, rgba, bgr, hsv, yCrCb, lab, gray]

def name : ColorSpace → String
  | rgb => "RGB"
  | rgba => "RGBA"
  | bgr => "BGR"
  | hsv => "HSV"
  | yCrCb => "YCrCb"
  | lab => "LAB"
  | gray => "GRAY"

def channels : ColorSpace → Nat
  | gray => 1
  | rgba => 4
  | _ => 3

def conversionName : ColorSpace → String
  | lab => "Lab"
  | c => c.name

/-- Both sides of the conversion constant. There is none between RGBA and a
space other than RGB, so RGBA is spelled as RGB there. -/
def conversionNames (source target : ColorSpace) : String × String :=
  if source = rgba ∧ target ≠ rgb then ("RGB", target.conversionName)
  else if source ≠ rgb ∧ target = rgba then (source.conversionName, "RGB")
  else (source.conversionName, target.conversionName)

end ColorSpace

end Pipewright
