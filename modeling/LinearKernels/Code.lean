import LinearKernels.LocalMemory

/-!
Kernel bodies. A body is a tree of declarations, assignments, loops and conditions over
expression texts; `lines` writes it with four blanks for each level of blocks.
-/

namespace LinearKernels

inductive Code where
  | skip
  | seq (first second : Code)
  | declare (element : ElementType) (name value : String)
  | declareLocal (array : LocalArray)
  /-- The item's index in its work group. -/
  | declareLane (name : String)
  | assign (target value : String)
  /-- An expression evaluated for its effect. -/
  | eval (text : String)
  /-- All items together run over the indices below the bound, each in strides of the grid. -/
  | gridLoop (axis : Nat) (index bound : String) (body : Code)
  /-- Each item runs over all indices from zero. -/
  | countLoop (index bound : String) (body : Code)
  | guard (condition : String) (body : Code)
  | combine (array : LocalArray) (op : BinaryOp) (lane : String)

namespace Code

def ofList : List Code → Code
  | [] => skip
  | c :: cs => seq c (ofList cs)

def gridHeader (axis : Nat) (index bound : String) : String :=
  "for (unsigned int " ++ index ++ " = get_global_id(" ++ decimal axis ++ "); " ++ bound ++
    "; " ++ index ++ " += get_global_size(" ++ decimal axis ++ "))"

def countHeader (index bound : String) : String :=
  "for (unsigned int " ++ index ++ " = 0; " ++ bound ++ "; ++" ++ index ++ ")"

/-- A line at a nesting depth. An empty line is not indented. -/
def indent (depth : Nat) (text : String) : String :=
  if text = "" then "" else String.join (List.replicate depth "    ") ++ text

def block (depth : Nat) (header : String) (body : List String) : List String :=
  indent depth header :: indent depth "\x7b" :: body ++ [indent depth "\x7d"]

def lines (depth : Nat) : Code → List String
  | skip => []
  | seq first second => first.lines depth ++ second.lines depth
  | declare element name value =>
    [indent depth (element.name ++ " " ++ name ++ " = " ++ value ++ ";")]
  | declareLocal array => [indent depth array.declaration]
  | declareLane name => [indent depth ("unsigned int " ++ name ++ " = get_local_id(0);")]
  | assign target value => [indent depth (target ++ " = " ++ value ++ ";")]
  | eval text => [indent depth (text ++ ";")]
  | gridLoop axis index bound body =>
    block depth (gridHeader axis index bound) (body.lines (depth + 1))
  | countLoop index bound body => block depth (countHeader index bound) (body.lines (depth + 1))
  | guard condition body => block depth ("if (" ++ condition ++ ")") (body.lines (depth + 1))
  | combine array op lane => (array.reduction op lane).map (indent depth)

end Code

end LinearKernels
