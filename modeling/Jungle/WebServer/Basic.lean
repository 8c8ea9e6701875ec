import Jungle.Lib.Loop
import Jungle.Proxy.Parsing

/-!
# The request loop of the web server

What `main` of `webproxy-lab/webserver.c` does with a connection that has been accepted. A C string is the
list of its bytes. `World` holds what `open`, `fstat` and `mmap` make of the files to come, and whether the
next calls of `fork` succeed. The events are what the connection is sent, the CGI programs that are run
with the connection as their output, what is printed of each line, the calls of `close` on the connection,
and a call of `strstr` with no URL, at which the server faults. `parsed_uri` is never `NULL`. Where `url` is
empty, `url++` goes past its end; which file that opens is up to the world.
-/

set_option autoImplicit false
set_option relaxedAutoImplicit false

namespace Jungle.WebServer

open Jungle.Lib
open Jungle.Proxy (bytes)

/-- `BUFFER_SIZE` -/
def BUFFER_SIZE : ℕ := 1024

/-! ### The surroundings -/

/-- What becomes of a file: `open` fails, `fstat` fails, `mmap` fails, or it is mapped with its size. -/
inductive Opened
  | missing
  | noStat
  | noMap
  | mapped (size : ℕ)
deriving DecidableEq, Repr

/-- The files that are opened next, and whether the next calls of `fork` succeed. -/
structure World where
  opens : ℕ → Opened
  forks : ℕ → Bool

/-- The world after a file has been opened. -/
def World.opened (w : World) : World := { w with opens := fun i ↦ w.opens (i + 1) }

/-- The world after a call of `fork`. -/
def World.forked (w : World) : World := { w with forks := fun i ↦ w.forks (i + 1) }

/-- What the server does. -/
inductive Event
  | send (response : String)
  | sendFile (size : ℕ)
  | run (url : List UInt8)
  | print (line : Option (List UInt8))
  | close
  | nullUrl
deriving DecidableEq, Repr

/-- How the block for a request line is left: at its end, by `continue`, `break`, `return` or `exit`, or
by a fault. -/
inductive Exit
  | falls
  | continues
  | breaks
  | returns
  | exits
  | faults
deriving DecidableEq, Repr

/-- Where the server gets after a connection: to the next `accept`, or nowhere. -/
inductive Ending
  | accepts
  | returns
  | exits
  | faults
deriving DecidableEq, Repr

/-! ### The responses -/

/-- A response with a text. -/
def textResponse (status text : String) : String :=
  "HTTP/1.1 " ++ status ++ "\r\nContent-Type: text/plain\r\nContent-Length: " ++
    toString text.length ++ "\r\n\r\n" ++ text

/-- The response to a method other than `GET`. -/
def methodNotAllowed : String := textResponse "405 Method Not Allowed" "PLEASE ONLY USER GET"

/-- The response of the default path when there is no file. -/
def pathNotFound : String := textResponse "404 Method Not Allowed" "PATH NOT FOUND"

/-- The response of the `.html` path when there is no file. -/
def notFound : String :=
  "HTTP/1.1 404 Not Found\r\nContent-Type: text/html\r\nContent-Length: 48\r\n\r\n" ++
    "<html><body><h1>404 Not Found</h1></body></html>"

/-- The head of a response with a file. -/
def fileHeader (contentType : String) (size : ℕ) (more : String) : String :=
  "HTTP/1.1 200 OK\r\nContent-Type: " ++ contentType ++ "\r\nContent-Length: " ++ toString size ++
    "\r\n" ++ more ++ "\r\n"

/-! ### The request line -/

/-- `strsep(&string, delim)`: the token and what `string` is after the call. -/
def strsep (delim : List UInt8) : Option (List UInt8) → Option (List UInt8) × Option (List UInt8)
  | none => (none, none)
  | some s => (some (s.takeWhile (!delim.contains ·)),
      match s.dropWhile (!delim.contains ·) with
      | [] => none
      | _ :: rest => some rest)

/-- `strstr(string, part) != NULL` -/
def strstr (string part : List UInt8) : Bool := string.tails.any part.isPrefixOf

/-- The branch for `/cgi-bin/adder`. The child that runs the program is no part of the server. -/
def serveCgi (w : World) (url : List UInt8) : List Event × Exit × World :=
  if w.forks 0 then ([.run url], .falls, w.forked) else ([], .exits, w.forked)

/-- A file that has been opened is sent, or the loop is left. -/
def sendOpened (w : World) (contentType more : String) : List Event × Exit × World :=
  match w.opens 0 with
  | .missing | .noStat | .noMap => ([], .breaks, w.opened)
  | .mapped size => ([.send (fileHeader contentType size more), .sendFile size], .falls, w.opened)

/-- `parsed_uri` -/
def parsedUri (url : List UInt8) : List UInt8 :=
  if url.head? = some '/'.toUInt8 then url.tail else url

/-- The branch for `.html`. If there is no file, the response is sent and `fstat` fails. -/
def serveHtml (w : World) (url : List UInt8) : List Event × Exit × World :=
  if strstr (parsedUri url) (bytes "..") then ([], .returns, w)
  else if w.opens 0 = .missing then ([.send notFound], .breaks, w.opened)
  else sendOpened w "text/html" ""

/-- The branch for `/api/videos/sample.mp4`. -/
def serveVideo (w : World) : List Event × Exit × World :=
  sendOpened w "video/mp4" "Content-Disposition: inline\r\n"

/-- The branch for any other file. -/
def serveOther (w : World) : List Event × Exit × World :=
  if w.opens 0 = .missing then ([.send pathNotFound, .close], .continues, w.opened)
  else sendOpened w "image/gif" ""

/-- The branches for a URL. -/
def serveUrl (w : World) (url : List UInt8) : List Event × Exit × World :=
  if strstr url (bytes "/cgi-bin/adder") then serveCgi w url
  else if strstr url (bytes ".html") then serveHtml w url
  else if strstr url (bytes "/api/videos/sample.mp4") then serveVideo w
  else serveOther w

/-- The block for the request line: what is done, how the block is left, the world, and what is left of
the line. -/
def requestLine (w : World) (line : List UInt8) :
    List Event × Exit × World × Option (List UInt8) :=
  let (method, token) := strsep (bytes " ") (some line)
  let (url, token) := strsep (bytes " ") token
  let (_version, token) := strsep (bytes " ") token
  if method ≠ some (bytes "GET") then ([.send methodNotAllowed, .close], .continues, w, token)
  else match url with
    | none => ([.nullUrl], .faults, w, token)
    | some url =>
      let (events, exit, w) := serveUrl w url
      (events, exit, w, token)

/-! ### The loop -/

/-- `events` come before what a call does. -/
def after (events : List Event) (call : Option (List Event × Ending)) :
    Option (List Event × Ending) := call.map fun (later, ending) ↦ (events ++ later, ending)

/-- The loop over the lines, for at most so many rounds: what is done, and where the server gets. -/
def lineLoop : ℕ → World → Bool → Option (List UInt8) → Option (List Event × Ending)
  | 0, _, _, _ => none
  | rounds + 1, w, isFirstLine, bufferPtr =>
    match strsep (bytes "\r\n") bufferPtr with
    | (none, _) => some ([], .accepts)
    | (some token, bufferPtr) =>
      if token = [] then lineLoop rounds w isFirstLine bufferPtr
      else if isFirstLine then
        match requestLine w token with
        | (events, .falls, w, token) =>
          after (events ++ [.print token]) (lineLoop rounds w false bufferPtr)
        | (events, .continues, w, _) => after events (lineLoop rounds w true bufferPtr)
        | (events, .breaks, _, _) => some (events, .accepts)
        | (events, .returns, _, _) => some (events, .returns)
        | (events, .exits, _, _) => some (events, .exits)
        | (events, .faults, _, _) => some (events, .faults)
      else after [.print token] (lineLoop rounds w false bufferPtr)

/-- The string in `buffer`, which starts with the bytes received and is zero after them. -/
def bufferString (received : List UInt8) : Option (List UInt8) :=
  if received.length < BUFFER_SIZE ∨ 0 ∈ received then some (received.takeWhile (· ≠ 0)) else none

/-- An accepted connection from which bytes are received. -/
def connection (fuel : ℕ) (w : World) (received : List UInt8) : Option (List Event × Ending) := do
  let (events, ending) ←
    if received = [] then some ([], .accepts)
    else lineLoop fuel w true (some (← bufferString received))
  return if ending = .accepts then (events ++ [.close], .accepts) else (events, ending)

end Jungle.WebServer
