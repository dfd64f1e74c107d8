import CoordTransform.Coordinate.Text
import CoordTransform.Datum.Document
import CoordTransform.Element.Printer

/-!
# Failures

Why a task was not carried out.
-/

namespace CoordTransform.CommandLine

/-- The kinds of files that the program reads. -/
inductive FileKind where
  | config
  | transform
  | catalog
  deriving DecidableEq, Repr

/-- The name of a kind in messages. -/
def FileKind.name : FileKind → String
  | config => "config"
  | transform => "transform from"
  | catalog => "datum catalog"

/-- Why a task was not carried out. -/
inductive Failure where
  | unreadable (kind : FileKind) (path : String)
  | illFormed (kind : FileKind) (path : String)
  | element (error : ElementError Float)
  | transform (error : TransformError Float)
  | filter (error : FilterError Float)
  | input (error : InputError)
  | catalog (error : CatalogError)
  | unknownEllipsoid (name : String)
  | unknownDatum (name : String)

/-- The wording of a failure, without its cause. -/
def Failure.message : Failure → String
  | unreadable kind path => "reading " ++ kind.name ++ " " ++ path
  | illFormed kind path => "parsing " ++ kind.name ++ " " ++ path
  | element e => e.message
  | transform e => e.message
  | filter e => e.message
  | input e => e.message
  | catalog e => e.message
  | unknownEllipsoid name => "unknown ellipsoid '" ++ name ++ "'"
  | unknownDatum name => "unknown datum '" ++ name ++ "'"

end CoordTransform.CommandLine
