import OsnAssignments.Common.Duplex
import Mathlib.Data.List.Basic
import Mathlib.Logic.Function.Basic

/-!
# The file transfer client and server

`client.c` and `server.c`: the client reads command lines; for `get` it asks for files by name, and
the server sends each of them in chunks that the client acknowledges. Everything travels as plain
bytes over one connection, and both sides recognise the words of the protocol by `strcmp` on a
buffer that keeps the bytes of earlier messages.

The state of a side is its position in `main` and those of its variables that decide what it does
next. Each position is in front of a `send`, or of a `recv` or `read` on the socket; what stands in
between is part of the step.

Conventions of the model:

* a buffer is the list of its bytes up to the last one written; the rest is zero. Both sides clear
  their buffers at the top of the outer loop;
* a command line is the list of its tokens, as `strtok` gives them;
* client and server work in different directories, and the client can create every file it opens;
* `fd1`, which the client's loop declares anew on each pass, keeps its value;
* the progress texts are left out, but not the buffers they are put together in: a side that writes
  past the end of `t`, `name` or `perc` is `overrun` and does nothing more;
* `open` also succeeds for directories, devices and pipes. What `lseek` and `read` answer then is
  left open, and a server that has opened such a `special` name is not followed any further. For a
  directory every `read` fails, and the loop that sends the file does not end.
-/

namespace FileTransfer

open Duplex

/-! ## Bytes and C strings -/

/-- A `char`. -/
abbrev Byte := UInt8

/-- The bytes of a text. -/
def text (cs : List Char) : List Byte :=
  cs.map fun c => c.toNat.toUInt8

/-- The command that asks for files. -/
def getWord : List Byte := text ['g', 'e', 't']

/-- The command that ends the session. -/
def exitWord : List Byte := text ['e', 'x', 'i', 't']

/-- The word that ends a file, and a list of names. -/
def endWord : List Byte := text ['e', 'n', 'd']

/-- The answer to a command, and to a size. -/
def okWord : List Byte := text ['o', 'k']

/-- The answer to a chunk. -/
def okiWord : List Byte := text ['o', 'k', 'i']

/-- The answer to a name that cannot be opened. -/
def invalidWord : List Byte := text ['I', 'n', 'v', 'a', 'l', 'i', 'd']

/-- What is sent for a C string together with the NUL that ends it. -/
def terminated (w : List Byte) : List Byte :=
  w ++ [0]

/-- The C string at the start of a buffer. -/
def cstring (buffer : List Byte) : List Byte :=
  buffer.takeWhile (· ≠ 0)

/-- The buffer after `msg` has been read into it: what it held beyond `msg` stays. -/
def overlay (msg buffer : List Byte) : List Byte :=
  msg ++ buffer.drop msg.length

/-- What `sprintf` writes for `%d`. -/
def decimal (z : ℕ) : List Byte :=
  text (Nat.toDigits 10 z)

/-- A directory: the contents of the regular files that can be opened. -/
abbrev Files := List Byte → Option (List Byte)

/-! ## Command lines -/

/-- The bytes that end a token for `strtok`. -/
def separators : List Byte :=
  0 :: text [' ', '\n', '\t']

/-- `strtok` can return these bytes. -/
def isToken (bytes : List Byte) : Bool :=
  !bytes.isEmpty && bytes.all fun b => !separators.contains b

/-- A token of a command line. -/
structure Token where
  bytes : List Byte
  isToken : FileTransfer.isToken bytes = true
deriving DecidableEq

/-- The names that a command line asks for. -/
def names : List Token → List Token
  | [] => []
  | t :: ts => if t.bytes = getWord then ts else []

/-! ## The client -/

namespace Client

/-- Where the client is in `main`. In each case `ts` are the names `t[i+1]`, `t[i+2]`, ... that
are left to do. -/
inductive Pc
  /-- About to call `getline`. -/
  | prompt
  /-- Waiting for the answer to the command `t[0]`. -/
  | ack (t : Token) (ts : List Token)
  /-- At the head of the loop over the names. -/
  | names (ts : List Token)
  /-- Waiting for the size of the file `t`, or for its refusal. -/
  | reply (t : Token) (ts : List Token)
  /-- About to send `ok`. -/
  | ok (t : Token) (ts : List Token)
  /-- Waiting for a chunk of `t` or the end of it; `opened` if `j > 0`. -/
  | chunk (t : Token) (ts : List Token) (opened : Bool)
  /-- About to send `oki` and to write the `m` bytes just read. -/
  | oki (t : Token) (ts : List Token) (opened : Bool) (m : ℕ)
  | exited
  | overrun
deriving DecidableEq

end Client

/-- The state of the client. -/
structure Client where
  pc : Client.Pc
  buffer2 : List Byte
  /-- The client's directory. -/
  files : Files
  /-- The lines still to be typed. -/
  lines : List (List Token)
  /-- The lines typed so far, latest first. The program does not keep them. -/
  typed : List (List Token)

namespace Client

/-- The number of entries of `t`. -/
def maxTokens : ℕ := 1000

/-- The longest name for which `perc` holds the progress text. -/
def maxShown : ℕ := 23

/-- The file `t` after the client has received the data of one more chunk: the first chunk opens
the file, which truncates it. -/
def store (c : Client) (t : Token) (opened : Bool) (data : List Byte) : Files :=
  Function.update c.files t.bytes
    (some (if opened then (c.files t.bytes).getD [] ++ data else data))

/-- The step of the client when it is not waiting for the server. -/
def act (c : Client) : Option (Client × Option (List Byte)) :=
  match c.pc with
  | .prompt =>
    match c.lines with
    | [] => none
    -- `a==0`: nothing is sent.
    | [] :: rest => some ({ c with lines := rest, typed := [] :: c.typed }, none)
    | (t :: ts) :: rest =>
      let c := { c with buffer2 := [], lines := rest, typed := (t :: ts) :: c.typed }
      -- `t[a][0]='\0'` needs room for one more entry than there are tokens.
      if (t :: ts).length < maxTokens then some ({ c with pc := .ack t ts }, some t.bytes)
      else some ({ c with pc := .overrun }, none)
  -- Unlike the command, the names and `end` are sent with their NUL.
  | .names [] => some ({ c with pc := .prompt }, some (terminated endWord))
  | .names (t :: ts) => some ({ c with pc := .reply t ts }, some (terminated t.bytes))
  | .ok t ts => some ({ c with pc := .chunk t ts false }, some (terminated okWord))
  | .oki t ts opened m =>
    -- `oki` is sent before the progress text is put together, and the data is written after it.
    if t.bytes.length ≤ maxShown then
      some ({ c with pc := .chunk t ts true, files := c.store t opened (c.buffer2.take m) },
        some (terminated okiWord))
    else some ({ c with pc := .overrun }, some (terminated okiWord))
  | .ack _ _ | .reply _ _ | .chunk _ _ _ | .exited | .overrun => none

/-- The size limit of the `recv` or `read` that the client is waiting in. -/
def limit (c : Client) : Option ℕ :=
  match c.pc with
  | .ack _ _ => some 1000
  | .reply _ _ | .chunk _ _ _ => some 1000000
  | .prompt | .names _ | .ok _ _ | .oki _ _ _ _ | .exited | .overrun => none

/-- The client takes the contents of `buffer2` for the end of the file. -/
def endsFile (buffer2 : List Byte) : Bool :=
  cstring buffer2 = invalidWord ∨ cstring buffer2 = endWord

/-- What the client does with the bytes it receives. -/
def receive (c : Client) (msg : List Byte) : Client :=
  match c.pc with
  | .ack t ts =>
    -- The answer goes to `buffer`, and nobody looks at it.
    if t.bytes = exitWord then { c with pc := .exited }
    else if t.bytes = getWord then { c with pc := .names ts }
    else { c with pc := .prompt }
  | .reply t ts =>
    let buffer2 := overlay msg c.buffer2
    if cstring buffer2 = invalidWord then { c with pc := .names ts, buffer2 := buffer2 }
    else { c with pc := .ok t ts, buffer2 := buffer2 }
  | .chunk t ts opened =>
    let buffer2 := overlay msg c.buffer2
    -- Data that looks like one of the two words ends the file.
    if endsFile buffer2 then { c with pc := .names ts, buffer2 := buffer2 }
    else { c with pc := .oki t ts opened msg.length, buffer2 := buffer2 }
  | .prompt | .names _ | .ok _ _ | .oki _ _ _ _ | .exited | .overrun => c

/-- The client at the start of `main`, with the lines that will be typed. -/
def start (files : Files) (lines : List (List Token)) : Client :=
  ⟨.prompt, [], files, lines, []⟩

end Client

/-! ## The server -/

namespace Server

/-- Where the server is in `main`. `content` is what the open file holds and `pos` the offset of
its file descriptor. -/
inductive Pc
  /-- Waiting for a command. -/
  | top
  /-- About to acknowledge the command in `buffer`. -/
  | acking (buffer : List Byte)
  /-- Waiting for a name. -/
  | name
  /-- About to send `Invalid`. -/
  | refuse
  /-- About to send the size. -/
  | size (content : List Byte)
  /-- Waiting for `ok`. -/
  | awaitOk (content : List Byte)
  /-- About to read from the file and to send what was read. -/
  | file (content : List Byte) (pos : ℕ)
  /-- Waiting for `oki`. -/
  | awaitOki (content : List Byte) (pos : ℕ)
  /-- Has opened something that is not a regular file. -/
  | special
  | exited
  | overrun
deriving DecidableEq

end Server

/-- The state of the server. -/
structure Server where
  pc : Server.Pc
  buffer2 : List Byte
  /-- The names the server has tried to open. The program does not keep them. -/
  asked : List (List Byte)

namespace Server

/-- The size of `name`. -/
def nameSize : ℕ := 20

/-- The number of bytes that one `read` takes from the file. -/
def chunkSize : ℕ := 99999

/-- What the next `read` takes from the file. -/
def nextChunk (content : List Byte) (pos : ℕ) : List Byte :=
  (content.drop pos).take chunkSize

/-- Where the server goes after it has acknowledged a command. -/
def afterAck (buffer : List Byte) : Pc :=
  if cstring buffer = getWord then .name
  else if cstring buffer = exitWord then .exited
  else .top

/-- The step of the server when it is not waiting for the client. -/
def act (s : Server) : Option (Server × Option (List Byte)) :=
  match s.pc with
  | .acking buffer => some ({ s with pc := afterAck buffer }, some (terminated okWord))
  | .refuse => some ({ s with pc := .name }, some (terminated invalidWord))
  | .size content =>
    some ({ s with pc := .awaitOk content }, some (terminated (decimal content.length)))
  | .file content pos =>
    match nextChunk content pos with
    | [] =>
      -- `x==0`; `buffer2[0]='\0'` comes after the `send`.
      some ({ s with pc := .name, buffer2 := overlay [0] s.buffer2 }, some (terminated endWord))
    | b :: chunk =>
      some ({ s with
        pc := .awaitOki content (pos + (b :: chunk).length)
        buffer2 := overlay (b :: chunk) s.buffer2 }, some (b :: chunk))
  | .top | .name | .awaitOk _ | .awaitOki _ _ | .special | .exited | .overrun => none

/-- The size limit of the `recv` or `read` that the server is waiting in. -/
def limit (s : Server) : Option ℕ :=
  match s.pc with
  | .top | .name => some 1024
  | .awaitOk _ => some 5
  | .awaitOki _ _ => some 4
  | .acking _ | .refuse | .size _ | .file _ _ | .special | .exited | .overrun => none

/-- What the server does with the name at the start of `buffer2`. -/
def takeName (files : Files) (special : List Byte → Bool) (s : Server) (buffer2 : List Byte) :
    Server :=
  let name := cstring buffer2
  -- `strcpy(name,buffer2)` comes before everything else.
  if nameSize ≤ name.length then { s with pc := .overrun, buffer2 := buffer2 }
  else if name = endWord then { s with pc := .top, buffer2 := buffer2 }
  else if special name then { pc := .special, buffer2 := buffer2, asked := name :: s.asked }
  else
    match files name with
    | none => { pc := .refuse, buffer2 := buffer2, asked := name :: s.asked }
    | some content => { pc := .size content, buffer2 := buffer2, asked := name :: s.asked }

/-- What the server does with the bytes it receives. -/
def receive (files : Files) (special : List Byte → Bool) (s : Server) (msg : List Byte) :
    Server :=
  match s.pc with
  -- Each pass of the outer loop starts with cleared buffers.
  | .top => { s with pc := .acking msg, buffer2 := [] }
  | .name => takeName files special s (overlay msg s.buffer2)
  -- Whatever arrives is taken for the acknowledgement.
  | .awaitOk content => { s with pc := .file content 0, buffer2 := overlay msg s.buffer2 }
  | .awaitOki content pos => { s with pc := .file content pos, buffer2 := overlay msg s.buffer2 }
  | .acking _ | .refuse | .size _ | .file _ _ | .special | .exited | .overrun => s

/-- The server at the start of `main`. -/
def start : Server :=
  ⟨.top, [], []⟩

end Server

/-! ## The connection -/

/-- What a session depends on: the two directories and the lines typed at the client. -/
structure Setup where
  clientFiles : Files
  serverFiles : Files
  /-- The names that the server can open and that are not regular files. -/
  special : List Byte → Bool
  lines : List (List Token)

/-- The two sides and the messages under way. -/
abbrev State := Duplex.State Byte Client Server

namespace Setup

/-- The client as one end of the connection. -/
def client : Endpoint Byte Client :=
  ⟨Client.act, Client.limit, Client.receive⟩

variable (S : Setup)

/-- The server as the other end. -/
def server : Endpoint Byte Server :=
  ⟨Server.act, Server.limit, Server.receive S.serverFiles S.special⟩

/-- Both sides at the start of `main`. -/
def start : State :=
  ⟨.start S.clientFiles S.lines, .start, [], []⟩

/-- The client and the server, connected by channels of the given kind. -/
def session (deliver : Delivery Byte) : Transition.System State (Action × Unit) :=
  joint client S.server S.start deliver

end Setup

/-- What an execution of a session finds is found at the end of some run. -/
theorem exists_run (S : Setup) (deliver : Delivery Byte) (as : List Action)
    (P : List (State × (Action × Unit)) → State → Bool) (h : (Transition.exec
      (fun s a => (Duplex.State.step Setup.client S.server deliver s a).map fun s' => (s', ()))
      [] S.start as).any (fun r => P r.1 r.2) = true) :
    ∃ hist s, (S.session deliver).Run hist s ∧ P hist s = true :=
  Duplex.exists_run as P h

end FileTransfer
