import Pipewright.Value

/-!
# Known types

The types that the target languages and the vision library bring along.
-/

namespace Pipewright

namespace Catalog

def boolean : Ty := .builtin "boolean"
def int : Ty := .builtin "int"
def long : Ty := .builtin "long"
def float : Ty := .builtin "float"
def double : Ty := .builtin "double"
def void : Ty := .builtin "void"

end Catalog

namespace Catalog.Java

def string : Ty := .of "String" "java.lang"

/-- Visible everywhere. -/
def math : Ty := (Ty.of "Math" "java.lang").withRule .never

def arrayList (element : Ty) : Ty := (Ty.of "ArrayList" "java.util").withGenerics [element]
def list (element : Ty) : Ty := (Ty.of "List" "java.util").withGenerics [element]
def hashMap (key value : Ty) : Ty := (Ty.of "HashMap" "java.util").withGenerics [key, value]
def map (key value : Ty) : Ty := (Ty.of "Map" "java.util").withGenerics [key, value]

def mapEntry (key value : Ty) : Ty := (Ty.of "Entry" "java.util.Map").withGenerics [key, value]

def set (element : Ty) : Ty := (Ty.of "Set" "java.util").withGenerics [element]
def collections : Ty := .of "Collections" "java.util"

/-- The annotation that shows an instance variable under a readable name in previews. -/
def labelType : Ty := .of "Label" "io.github.deltacv.eocvsim.virtualreflect.jvm"

end Catalog.Java

namespace Catalog.Kotlin

def boolean : Ty := .builtin "Boolean"
def int : Ty := .builtin "Int"
def long : Ty := .builtin "Long"
def float : Ty := .builtin "Float"
def double : Ty := .builtin "Double"
def unit : Ty := .of "Unit" "kotlin"

end Catalog.Kotlin

namespace Catalog.OpenCv

def pipeline : Ty := .of "OpenCvPipeline" "org.openftc.easyopencv"
def streamablePipeline : Ty := .of "StreamableOpenCvPipeline" "io.github.deltacv.eocvsim.pipeline"
def imgproc : Ty := .of "Imgproc" "org.opencv.imgproc"
def core : Ty := .of "Core" "org.opencv.core"
def cvType : Ty := .of "CvType" "org.opencv.core"
def mat : Ty := .of "Mat" "org.opencv.core"
def matOfInt : Ty := .of "MatOfInt" "org.opencv.core"
def matOfPoint : Ty := .of "MatOfPoint" "org.opencv.core"
def matOfPoint2f : Ty := .of "MatOfPoint2f" "org.opencv.core"
def size : Ty := .of "Size" "org.opencv.core"
def scalar : Ty := .of "Scalar" "org.opencv.core"
def rect : Ty := .of "Rect" "org.opencv.core"
def rotatedRect : Ty := .of "RotatedRect" "org.opencv.core"
def point : Ty := .of "Point" "org.opencv.core"

def constant (name : String) : Value :=
  (Value.new int ("Imgproc." ++ name)).withImports [imgproc]

end Catalog.OpenCv

namespace Catalog.Python

def noType : Ty := .builtin "None"

/-- A module, which is imported even where its name is the one in use. -/
def module (path : String) (name : Option String) : Ty :=
  (Ty.of (name.getD path) path).withRule .always

def cv2 : Ty := module "cv2" none
def numpy : Ty := module "numpy" (some "np")
def ndArray : Ty := (Ty.of "np.ndarray" "numpy").importedAs numpy

def constant (name : String) : Value :=
  (Value.new noType ("cv2." ++ name)).withImports [cv2]

end Catalog.Python

namespace Catalog

def table : List (String × Ty) := [
  ("none", .empty), ("boolean", boolean), ("int", int), ("long", long), ("float", float), ("double", double),
  ("void", void),
  ("java.string", Java.string), ("java.math", Java.math), ("java.collections", Java.collections),
  ("java.label_annotation", Java.labelType),
  ("kotlin.boolean", Kotlin.boolean), ("kotlin.int", Kotlin.int), ("kotlin.long", Kotlin.long),
  ("kotlin.float", Kotlin.float), ("kotlin.double", Kotlin.double), ("kotlin.unit", Kotlin.unit),
  ("opencv.open_cv_pipeline", OpenCv.pipeline), ("opencv.streamable_open_cv_pipeline", OpenCv.streamablePipeline),
  ("opencv.imgproc", OpenCv.imgproc), ("opencv.core", OpenCv.core), ("opencv.cv_type", OpenCv.cvType),
  ("opencv.mat", OpenCv.mat), ("opencv.mat_of_int", OpenCv.matOfInt), ("opencv.mat_of_point", OpenCv.matOfPoint),
  ("opencv.mat_of_point2f", OpenCv.matOfPoint2f), ("opencv.size", OpenCv.size), ("opencv.scalar", OpenCv.scalar),
  ("opencv.rect", OpenCv.rect), ("opencv.rotated_rect", OpenCv.rotatedRect), ("opencv.point", OpenCv.point),
  ("python.no_type", Python.noType), ("python.cv2", Python.cv2), ("python.numpy", Python.numpy),
  ("python.nd_array", Python.ndArray)]

end Catalog

end Pipewright
