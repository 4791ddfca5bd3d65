import CacheForge.Protocol.Parser

namespace CacheForge

def needsQuote (c : Char) : Bool := c == ' ' || c == '\t' || c == '"' || c == '\\'

def escape (s : Str) : Str := s.flatMap (fun c => if c = '"' ∨ c = '\\' then ['\\', c] else [c])

def quoteIfNeeded (s : Str) : Str :=
  if s.any needsQuote then '"' :: (escape s ++ ['"']) else s

inductive Record where
  | set (key value : Str)
  | del (key : Str)
  | expire (key : Str) (seconds : Int)
  deriving DecidableEq, Repr

def Record.line : Record → Str
  | .set key value => ['S', 'E', 'T', ' '] ++ quoteIfNeeded key ++ [' '] ++ quoteIfNeeded value
  | .del key => ['D', 'E', 'L', ' '] ++ quoteIfNeeded key
  | .expire key seconds =>
      ['E', 'X', 'P', 'I', 'R', 'E', ' '] ++ quoteIfNeeded key ++ [' '] ++ stdToString seconds

structure AOFWriter where
  enabled : Bool
  stopped : Bool
  queue : List Str
  deriving DecidableEq, Repr

namespace AOFWriter

def enqueue (command : Str) (w : AOFWriter) : AOFWriter :=
  if w.stopped then w else { w with queue := w.queue ++ [command] }

def log (r : Record) (w : AOFWriter) : AOFWriter :=
  if !w.enabled then w else w.enqueue r.line

def logSet (key value : Str) (w : AOFWriter) : AOFWriter := w.log (.set key value)
def logDel (key : Str) (w : AOFWriter) : AOFWriter := w.log (.del key)
def logExpire (key : Str) (seconds : Int) (w : AOFWriter) : AOFWriter := w.log (.expire key seconds)

def running : AOFWriter := ⟨true, false, []⟩

end AOFWriter

end CacheForge
