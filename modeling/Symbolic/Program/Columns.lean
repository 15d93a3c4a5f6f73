import Symbolic.Program.Compile

/-!
Compiled functions at many points. The points come in columns, one for each parameter. All points of
a batch, or of the chunks that one worker takes, are computed in one workspace, which is never
cleared.
-/

namespace Symbolic

/-- What a program runs in, point after point: its cells, and the values of the parameters. -/
structure Workspace (α : Type) where
  cells : Array α
  point : List α

namespace Compiled

variable {α : Type} [Scalar α]

/-- The smallest number of points that are shared out in chunks, and the size of a chunk. -/
def chunkSize : Nat := 256

def workspace (f : Compiled) (width : Nat) : Workspace α :=
  ⟨f.program.freshCells, List.replicate width (Scalar.ofRat 0)⟩

/-- Put the values of the columns at place `i` into the slots of a point. A slot that has no column
keeps its value. -/
def load (i : Nat) : List (Array α) → List α → List α
  | xs :: columns, _ :: slots => xs[i]?.getD Scalar.undefined :: load i columns slots
  | _, slots => slots

def runAt (f : Compiled) (columns : List (Array α)) (w : Workspace α) (i : Nat) :
    α × Workspace α :=
  let point := load i columns w.point
  let (x, cells) := f.program.run point.toArray w.cells
  (x, ⟨cells, point⟩)

def runAll (f : Compiled) (columns : List (Array α)) (w : Workspace α) :
    List Nat → List α × Workspace α
  | [] => ([], w)
  | i :: rest =>
    let (x, w) := f.runAt columns w i
    let (xs, w) := f.runAll columns w rest
    (x :: xs, w)

/-- The columns do not fit the parameters. -/
def wrongColumns (f : Compiled) (columns : List (Array α)) : Error :=
  .wrongCount f.params.length columns.length

/-- Put the values at all places of the columns into an output of the same length. If the columns do
not fit, it stays as it is. -/
def evaluateBatch (f : Compiled) (columns : List (Array α)) (output : List α) :
    Except Error Unit × List α :=
  if columns.length ≠ f.params.length then (.error (f.wrongColumns columns), output)
  else if columns.any (·.size ≠ output.length) then (.error .unevenColumns, output)
  else
    let w := f.workspace columns.length
    (.ok (), (f.runAll columns w (List.range output.length)).1)

/-! Points that are shared out among workers. -/

/-- Where the chunks of `n` places start. -/
def chunkStarts (n : Nat) : List Nat :=
  (List.range ((n + chunkSize - 1) / chunkSize)).map (· * chunkSize)

/-- The places of the chunk that starts at `start`; the last chunk may be short. -/
def chunk (n start : Nat) : List Nat :=
  List.range' start (min (start + chunkSize) n - start)

/-- What a worker makes of the chunks it takes, each with its start, all in one workspace. -/
def work (f : Compiled) (columns : List (Array α)) (n : Nat) (w : Workspace α) :
    List Nat → List (Nat × List α)
  | [] => []
  | start :: rest =>
    let (xs, w) := f.runAll columns w (chunk n start)
    (start, xs) :: f.work columns n w rest

/-- The chunks that are done, in the order of their starts. -/
def collect (starts : List Nat) (done : List (Nat × List α)) : List (Nat × List α) :=
  starts.filterMap fun start => done.find? (·.1 = start)

/-- Put values into an output from place `start` on. -/
def overwrite (start : Nat) (xs output : List α) : List α :=
  output.take start ++ xs ++ output.drop (start + xs.length)

def writeBack (done : List (Nat × List α)) (output : List α) : List α :=
  done.foldl (fun output c => overwrite c.1 c.2 output) output

/-- The values at all places of the columns. Many places are shared out in chunks: the schedule has
a list for each worker, of the starts of the chunks that it takes one after the other. Without
columns there is one point. -/
def evaluateShared (f : Compiled) (schedule : List (List Nat)) (columns : List (Array α)) :
    Except Error (List α) :=
  let n := match columns with
    | [] => 1
    | c :: _ => c.size
  if columns.any (·.size ≠ n) then .error .unevenColumns
  else
    let output := List.replicate n (Scalar.ofRat 0)
    if n < chunkSize then
      match f.evaluateBatch columns output with
      | (.ok _, output) => .ok output
      | (.error err, _) => .error err
    else if columns.length ≠ f.params.length then .error (f.wrongColumns columns)
    else
      let done := schedule.flatMap (f.work columns n (f.workspace columns.length))
      .ok (writeBack (collect (chunkStarts n) done) output)

def evaluateColumns (f : Compiled) (columns : List (List α)) (n : Nat) : Except Error (List α) :=
  match f.evaluateBatch (columns.map List.toArray) (List.replicate n (Scalar.ofRat 0)) with
  | (.ok _, output) => .ok output
  | (.error err, _) => .error err

/-- The values at all places, each chunk by a worker of its own. -/
def evaluateChunked (f : Compiled) (columns : List (List α)) : Except Error (List α) :=
  let n := (columns.headD []).length
  f.evaluateShared ((chunkStarts n).map fun start => [start]) (columns.map List.toArray)

end Compiled

end Symbolic
