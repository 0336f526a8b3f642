import ClassAssembler.Listing.Basic

/-!
# Text of listings

One line for each class, field, method, entry and exception range, indented by what it belongs to.
-/

namespace ClassAssembler

def Entry.listingLine : Entry → String
  | .label l => "   " ++ l.display ++ ":"
  | .insn i => "      " ++ i.detail
  | .branch b => "      " ++ b.detail

def ExceptionRange.listingLine (range : ExceptionRange) : String :=
  "      catch " ++ range.caughtText ++ " [" ++ range.start.display ++ ", " ++
    range.stop.display ++ ") -> " ++ range.handler.display

def MethodListing.lines (method : MethodListing) : List String :=
  ("  method " ++ method.header.name.text ++ Descriptor.render method.header.type ++ " " ++
      method.header.access.describe ++ " (max_locals = " ++ toString method.maxLocals.toNat ++ ")")
    :: (method.entries.map Entry.listingLine ++ method.ranges.map ExceptionRange.listingLine)

def FieldHeader.listingLine (field : FieldHeader) : String :=
  "  field " ++ field.name.text ++ " " ++ Descriptor.render field.type ++ " " ++
    field.access.describe

def ClassHeader.listingLine (header : ClassHeader) : String :=
  let interfaces := match header.interfaces with
    | [] => ""
    | names => " implements " ++ ", ".intercalate (names.map ClassName.text)
  "class " ++ header.name.text ++ " extends " ++ header.superClass.text ++ interfaces ++ " \x7b"

def ClassListing.lines (listing : ClassListing) : List String :=
  listing.header.listingLine :: (listing.fields.toList.map FieldHeader.listingLine ++
    listing.methods.toList.flatMap MethodListing.lines ++ ["\x7d"])

def Listing.text (listing : Listing) : String :=
  String.join ((listing.classes.toList.flatMap ClassListing.lines).map (· ++ "\n"))

end ClassAssembler
