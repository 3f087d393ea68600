import E2Guardian.Sockets
import E2Guardian.Tunnel

/- HTTPHeader: the lines of a request or response header, the pointers into them that checkheader
   sets, and the operations that read, change and send them. A line keeps its identity while it is
   in the deque, whatever is pushed behind it; a pointer holds the identity of a line. -/
namespace GuardianHttp
open GuardianString GuardianChunks GuardianSockets GuardianTunnel

structure Options where
  max_header_line_length : Nat
  max_header_lines : Nat
  ident_header_value : Str
  forwarded_for : Bool
  deriving DecidableEq, Repr

inductive Pointer where
  | phost | pport | pcontentlength | pcontenttype | pproxyauthorization | pauthorization | pproxyauthenticate
  | pcontentdisposition | puseragent | pxforwardedfor | pcontentencoding | ptransfercoding | ptransferencoding
  | pproxyconnection | pkeepalive | pheaderident
  deriving DecidableEq, Repr

structure Line where
  id : Nat
  text : Str
  deriving DecidableEq, Repr

structure Index where
  pointer : Pointer → Option Nat
  useragent : Str
  contentlength : Int
  chunked : Bool
  expects_100 : Bool

structure HTTPHeader extends Index where
  header : List Line
  next : Nat -- the identity of the next line
  requesttype : Str
  returncode : Int
  port : Nat
  cachedurl : Str
  waspersistent : Bool
  ispersistent : Bool
  isheaderadded : Bool
  addheaderchecked : Bool
  mitm : Bool
  isdirect : Bool
  is_response : Bool
  icap : Bool
  isProxyRequest : Bool
  clcached : Bool
  dirty : Bool

def Index.point (p : Pointer) (target : Option Nat) (x : Index) : Index :=
  { x with pointer := fun q => if q = p then target else x.pointer q }

namespace HTTPHeader

def point (p : Pointer) (target : Option Nat) (h : HTTPHeader) : HTTPHeader :=
  { h with pointer := fun q => if q = p then target else h.pointer q }

def push (line : Str) (h : HTTPHeader) : HTTPHeader :=
  { h with header := h.header ++ [⟨h.next, line⟩], next := h.next + 1 }

def assign (id : Nat) (line : Str) (h : HTTPHeader) : HTTPHeader :=
  { h with header := h.header.map fun l => if l.id = id then { l with text := line } else l }

def text (id : Nat) (h : HTTPHeader) : Str := ((h.header.find? (·.id = id)).map (·.text)).getD []

def at_ (p : Pointer) (h : HTTPHeader) : Option Str := (h.pointer p).map fun id => h.text id

def front (h : HTTPHeader) : Str := (h.header.head?.map (·.text)).getD []

def setFront (line : Str) (h : HTTPHeader) : HTTPHeader :=
  { h with header := match h.header with
      | [] => []
      | first :: rest => { first with text := line } :: rest }

def clearPointers (h : HTTPHeader) : HTTPHeader :=
  { h with pointer := fun p => if p = .pheaderident then h.pointer p else none }

def reset (h : HTTPHeader) : HTTPHeader :=
  if h.dirty then
    { h.clearPointers with
      header := []
      waspersistent := false
      ispersistent := false
      cachedurl := []
      addheaderchecked := false
      isheaderadded := false
      clcached := false
      expects_100 := false
      mitm := false
      isdirect := false
      chunked := false
      useragent := []
      contentlength := -1
      requesttype := []
      returncode := 0
      dirty := false
      isProxyRequest := false
      icap := false }
  else h

/-- The constructor, with what it leaves in pheaderident, which it does not set. -/
def made (is_response : Bool) (pheaderident : Option Nat) : HTTPHeader where
  pointer p := if p = .pheaderident then pheaderident else none
  useragent := []
  contentlength := -1
  chunked := false
  expects_100 := false
  header := []
  next := 0
  requesttype := []
  returncode := 0
  port := 0
  cachedurl := []
  waspersistent := false
  ispersistent := false
  isheaderadded := false
  addheaderchecked := false
  mitm := false
  isdirect := false
  is_response := is_response
  icap := false
  isProxyRequest := false
  clcached := false
  dirty := false

end HTTPHeader

/- Strings. -/

def startsWithLower (s bs : Str) : Bool := bs.isPrefixOf (toLower (s.take bs.length))

def headerVal (s : Str) : Option Str :=
  let value := removeWhiteSpace (after s (str ":"))
  if value.length > 0 then some value else none

def toOffset (s : Str) : Int :=
  if s.length = 0 then 0
  else max (-2 ^ 63) (min (2 ^ 63 - 1) (signedDecimal ((removeWhiteSpace s).dropWhile isSpace)))

def removeMultiCharLoop (c : UInt8) : Bool → Str → Str
  | _, [] => []
  | repeated, t :: s =>
    if t ≠ c then t :: removeMultiCharLoop c false s
    else if repeated then removeMultiCharLoop c true s
    else t :: removeMultiCharLoop c true s

def removeMultiChar (s : Str) (c : UInt8) : Str := removeMultiCharLoop c false s

def chopDots (s : Str) : Str := (s.reverse.dropWhile (· == ch '.')).reverse

/- URLs. -/

def defaultPort (https : Bool) : Int := if https then 443 else 80

/-- In an `unsigned int` a negative number is far too large. -/
def validPort (https : Bool) (n : Int) : Int := if n ≤ 0 ∨ n > 65535 then defaultPort https else n

def withPort (withport https : Bool) (port : Int) (hostname : Str) : Str :=
  if withport ∧ port ≠ defaultPort https then hostname ++ str ":" ++ ofInt port else hostname

/-- The host without its port and trailing dots, and the port. -/
def splitPort (https : Bool) (port : Int) (hostname : Str) : Str × Int :=
  if contains hostname (str ":") then
    (chopDots (before hostname (str ":")), validPort https (toInteger (after hostname (str ":"))))
  else (chopDots hostname, port)

def absoluteUrl (withport https : Bool) (port : Int) (target : Str) : Str × Int :=
  let answer := if contains (after target (str "://")) (str "/") then target else target ++ str "/"
  let protocol := before answer (str "://")
  let rest := after answer (str "://")
  let url := removeWhiteSpace (after rest (str "/"))
  -- a dot at the end of all of it is chopped off before the path is
  let hostname := before (if endsWith rest (str ".") then chop rest else rest) (str "/")
  let url := if url.length > 0 then str "/" ++ url else url
  let userpassword := if contains hostname (str "@") then before hostname (str "@") else []
  let hostname := if contains hostname (str "@") then after hostname (str "@") else hostname
  let (hostname, port) := splitPort https port hostname
  let hostname := withPort withport https port hostname
  (if userpassword.length > 0 then protocol ++ str "://" ++ userpassword ++ str "@" ++ hostname ++ url
    else protocol ++ str "://" ++ hostname ++ url, port)

def hostUrl (withport https : Bool) (port : Int) (phost : Str) : Str × Int :=
  let hostname := removeWhiteSpace (after phost (str " "))
  let (hostname, port) := splitPort https port hostname
  (str "http://" ++ withPort withport https port hostname, port)

def targetOf (firstline : Str) : Str :=
  let answer := removeMultiChar (after firstline (str " ")) (ch ' ')
  if startsWith (after answer (str " ")) (str "HTTP/") then before answer (str " HTTP/")
  else before answer (str " http/")

namespace HTTPHeader

def isConnect (h : HTTPHeader) : Bool := h.requesttype = str "CONNECT"

def urlTarget (h : HTTPHeader) : Str :=
  let target := targetOf h.front
  if h.isConnect && !startsWith target (str "https://") then str "https://" ++ target else target

def urlPort (h : HTTPHeader) : Int :=
  match h.at_ .pport with
  | none => defaultPort h.isConnect
  | some line => validPort h.isConnect (toInteger (after line (str " ")))

def urlOf (withport : Bool) (h : HTTPHeader) : Str × Int × Option Str :=
  if h.urlTarget.length = 0 then (h.urlTarget, h.urlPort, none)
  else if startsWith h.urlTarget (str "/") then
    let (url, port) := match h.at_ .phost with
      | none => (h.urlTarget, h.urlPort)
      | some line =>
        let (hostname, port) := hostUrl withport h.isConnect h.urlPort line
        (hostname ++ h.urlTarget, port)
    (url, port, some (h.requesttype ++ str " " ++ url ++ str " HTTP/" ++ after h.front (str " HTTP/")))
  else
    let (url, port) := absoluteUrl withport h.isConnect h.urlPort h.urlTarget
    (url, port, none)

def noteUrl (port : Int) (firstline : Option Str) (h : HTTPHeader) : HTTPHeader :=
  match firstline with
  | none => { h with port := port.toNat }
  | some line => { h.setFront line with port := port.toNat }

def getUrl (withport isssl : Bool) (h : HTTPHeader) : Str × HTTPHeader :=
  if h.cachedurl.length > 0 ∧ !withport then (h.cachedurl, h)
  else
    let h := if isssl then { h with mitm := true, isdirect := true } else h
    if h.header.length = 0 then ([], { h with port := 80 })
    else
      let (answer, port, firstline) := h.urlOf withport
      let h := h.noteUrl port firstline
      (answer, if withport then h else { h with cachedurl := cstr answer })

/-- The host, the port and the URL with a slash behind the host. The port may be negative here. -/
def urlParts (https : Bool) (url : Str) : Str × Int × Str :=
  let url := if contains (after url (str "://")) (str "/") then url else url ++ str "/"
  let hostname := before (after url (str "://")) (str "/")
  let hostname := if contains hostname (str "@") then after hostname (str "@") else hostname
  if contains hostname (str ":") then
    let n := toInteger (after hostname (str ":"))
    (before hostname (str ":"), if n = 0 ∨ n > 65535 then defaultPort https else n, url)
  else (hostname, defaultPort https, url)

def hostLine (https : Bool) (hostname : Str) (port : Int) : Str :=
  str "Host: " ++ hostname ++ (if port ≠ defaultPort https then str ":" ++ ofInt port else []) ++ str "\r"

def assignAt (p : Pointer) (line : Str) (h : HTTPHeader) : HTTPHeader :=
  match h.pointer p with
  | none => h
  | some id => h.assign id line

def portLine (port : Int) : Str := str "Port: " ++ ofInt port ++ str "\r"

/-- The first line with another URL; a CONNECT request has only the host and the port. -/
def urlFirst (https : Bool) (hostname : Str) (port : Int) (url front : Str) : Str :=
  let version := after (after front (str " ")) (str " ")
  if https && startsWith front (str "CONNECT") then
    before front (str " ") ++ str " " ++ hostname ++ str ":" ++ ofInt port ++ str " " ++ version
  else before front (str " ") ++ str " " ++ url ++ str " " ++ version

def setLines (first host port : Str) (h : HTTPHeader) : HTTPHeader :=
  { ((h.setFront first).assignAt .phost host).assignAt .pport port with cachedurl := [] }

def setURL (url : Str) (h : HTTPHeader) : HTTPHeader :=
  if h.header.length = 0 then h
  else
    let https : Bool := before url (str "://") = str "https" ∨ h.requesttype = str "CONNECT"
    let (hostname, port, url) := urlParts https url
    h.setLines (urlFirst https hostname port url h.front) (hostLine https hostname port) (portLine port)

def setConnect (con_site : Str) (h : HTTPHeader) : HTTPHeader :=
  if h.header.length = 0 then h
  else if h.requesttype ≠ str "CONNECT" then h
  else
    let h := h.setFront (before h.front (str " ") ++ str " " ++ con_site ++ str ":" ++ ofInt h.port ++ str " " ++
      after (after h.front (str " ")) (str " "))
    { h with header := h.header.take 1 }.point .phost none

/- Lines that are changed one by one. -/

def makePersistent (persist : Bool) (h : HTTPHeader) : HTTPHeader :=
  if persist then
    if h.waspersistent ∧ !h.ispersistent then
      match h.at_ .pproxyconnection with
      | some line => { h.assignAt .pproxyconnection (before line (str ":") ++ str ": keep-alive\r") with ispersistent := true }
      | none => { (h.push (str "Connection: keep-alive\r")).point .pproxyconnection (some h.next) with ispersistent := true }
    else h
  else if h.ispersistent then
    match h.at_ .pproxyconnection with
    | some line => { h.assignAt .pproxyconnection (before line (str ":") ++ str ": close\r") with ispersistent := false }
    | none => { (h.push (str "Connection: close\r")).point .pproxyconnection (some h.next) with ispersistent := false }
  else h

def rename (p : Pointer) (name : Str) (h : HTTPHeader) : HTTPHeader :=
  match h.at_ p with
  | none => h
  | some line => h.assignAt p (name ++ after line (str ":"))

def makeTransparent (incoming : Bool) (h : HTTPHeader) : HTTPHeader :=
  if h.header.length = 0 then h
  else if incoming then
    let h := h.rename .pproxyconnection (str "Connection:")
    let h := h.rename .pproxyauthenticate (str "WWW-Authenticate:")
    if h.returncode = 407 then
      h.setFront (before h.front (str " ") ++ str " 401 " ++ after (after h.front (str " ")) (str " "))
    else h
  else
    let h := match h.pointer .pauthorization with
      | none => h
      | some id =>
        ((h.rename .pauthorization (str "Proxy-Authorization:")).point .pproxyauthorization (some id)).point
          .pauthorization none
    let h := h.rename .pproxyconnection (str "Connection:")
    (h.getUrl false false).2

def lengthLine (newlen : Int) : Str := str "Content-Length: " ++ ofInt newlen ++ str "\r"

def removeEncoding (newlen : Int) (h : HTTPHeader) : HTTPHeader :=
  (h.assignAt .pcontentlength (lengthLine newlen)).assignAt .pcontentencoding
    (str "X-DansGuardian-Removed: Content-Encoding\r")

def setContentLength (newlen : Int) (h : HTTPHeader) : HTTPHeader :=
  { h.assignAt .pcontentlength (lengthLine newlen) with contentlength := newlen, clcached := true }

def addHeader (newheader : Str) (h : HTTPHeader) : Bool × HTTPHeader :=
  if newheader.length > 0 then
    (true, { h.push (cstr (newheader ++ str "\r")) with isheaderadded := true, addheaderchecked := true })
  else (false, h)

end HTTPHeader

/- Reading a header. -/

def modifyEncodings (e : Str) : Str :=
  let e := toLower e
  str "Accept-Encoding: identity" ++ (if contains e (str "gzip") then str ",gzip" else []) ++
    (if contains e (str "deflate") then str ",deflate" else []) ++
    (if contains e (str "pack200-gzip") then str ",pack200-gzip" else [])

def named (line : Str) (name : String) : Bool := startsWithLower line (str name)

def removedHost : Str := str "X-E2G-IgnoreMe: removed multiple host headers\r"

def removedUpgrade : Str := str "X-E2G-IgnoreMe: removed upgrade-insecure-requests\r"

def acceptEncoding (line : Str) : Str := modifyEncodings (str "Accept-Encoding:" ++ after line (str ":")) ++ str "\r"

def saysChunked (line : Str) : Bool := contains line (str "chunked")

def checkName (outgoing : Bool) (i : Line) (x : Index) : Str × Index :=
  let free (p : Pointer) : Bool := (x.pointer p).isNone
  let noted (p : Pointer) : Str × Index := (i.text, x.point p (some i.id))
  if outgoing && free .phost && named i.text "host:" then noted .phost
  else if outgoing && !free .phost && named i.text "host:" then (removedHost, x)
  else if outgoing && free .puseragent && named i.text "user-agent:" then
    match headerVal i.text with
    | none => (i.text, { x with useragent := [] })
    | some value => (i.text, { x with useragent := value }.point .puseragent (some i.id))
  else if outgoing && named i.text "accept-encoding:" then
    (acceptEncoding i.text, x)
  else if !outgoing && free .pcontentencoding && named i.text "content-encoding:" then noted .pcontentencoding
  else if !outgoing && free .pkeepalive && named i.text "keep-alive:" then noted .pkeepalive
  else if free .pcontenttype && named i.text "content-type:" then noted .pcontenttype
  else if free .pcontentlength && named i.text "content-length:" then
    match headerVal i.text with
    | none => (i.text, x)
    | some tp => (i.text, { x with contentlength := toOffset tp }.point .pcontentlength (some i.id))
  else if free .pcontentdisposition && named i.text "content-disposition:" then noted .pcontentdisposition
  else if free .pproxyauthorization && named i.text "proxy-authorization:" then noted .pproxyauthorization
  else if free .pauthorization && named i.text "authorization:" then noted .pauthorization
  else if free .pproxyauthenticate && named i.text "proxy-authenticate:" then noted .pproxyauthenticate
  else if free .pproxyconnection && (named i.text "proxy-connection:" || named i.text "connection:") then noted .pproxyconnection
  else if outgoing && free .pxforwardedfor && named i.text "x-forwarded-for:" then noted .pxforwardedfor
  else if outgoing && free .pport && named i.text "port:" then noted .pport
  else if named i.text "transfer-encoding:" then
    (i.text, { x.point .ptransferencoding (some i.id) with
      chunked := x.chunked || saysChunked i.text })
  else if named i.text "transfer-coding:" then noted .ptransfercoding
  else if named i.text "expect: 100-continue" then (i.text, { x with expects_100 := true })
  else (i.text, x)

def checkLine (o : Options) (outgoing : Bool) (i : Line) (x : Index) : Line × Index :=
  let (text, x) := checkName outgoing i x
  let text := if outgoing && named text "upgrade-insecure-requests:" then removedUpgrade else text
  (⟨i.id, text⟩,
    if o.ident_header_value.length ≠ 0 ∧ outgoing ∧ x.pointer .pheaderident = none ∧
        startsWithLower text o.ident_header_value then x.point .pheaderident (some i.id) else x)

def checkLines (o : Options) (outgoing : Bool) : List Line → Index → List Line × Index
  | [], x => ([], x)
  | i :: rest, x =>
    let (line, x) := checkLine o outgoing i x
    let (lines, x) := checkLines o outgoing rest x
    (line :: lines, x)

namespace HTTPHeader

def indexLines (o : Options) (h : HTTPHeader) : HTTPHeader :=
  let (lines, x) := checkLines o (!h.is_response) h.header.tail h.toIndex
  { h with toIndex := x, header := h.header.take 1 ++ lines }

def checkFirst (firstline : Str) (h : HTTPHeader) : HTTPHeader :=
  if h.is_response then
    let returncode := toInteger (removeWhiteSpace (before (after firstline (str " ")) (str " ")))
    { h with
      returncode := returncode
      contentlength := if returncode < 200 ∨ returncode = 204 ∨ returncode = 304 then 0 else h.contentlength }
  else
    let requesttype := before firstline (str " ")
    { h with
      requesttype := requesttype
      contentlength := if startsWith requesttype (str "P") then h.contentlength else 0
      isProxyRequest := !startsWith (after firstline (str " ")) (str "/") }

def connectionclose (h : HTTPHeader) : Bool :=
  if h.icap then false
  else
    match h.at_ .pproxyconnection with
    | none => true
    | some line => contains line (str "lose")

def persistency (allowpersistent : Bool) (firstline : Str) (h : HTTPHeader) : Bool :=
  let onepointone := startsWith (after firstline (str "HTTP/")) (str "1.1")
  let isconnect : Bool := !h.is_response && firstline.head? = some (ch 'C')
  let refused := h.connectionclose ||
    (!onepointone && if h.is_response then (h.pointer .pcontentlength).isNone else isconnect)
  allowpersistent && !refused

def wasPersistent (firstline : Str) (h : HTTPHeader) : Bool :=
  let isconnect : Bool := !h.is_response && firstline.head? = some (ch 'C')
  if h.icap then h.waspersistent
  else if h.is_response then h.waspersistent || (!h.connectionclose && (h.pointer .pcontentlength).isSome)
  else h.waspersistent || (isconnect && !h.connectionclose)

def forceConnection (allowpersistent : Bool) (h : HTTPHeader) : HTTPHeader :=
  let line := if allowpersistent then str "Connection: keep-alive\r" else str "Connection: close\r"
  if h.icap then h
  else
    match h.pointer .pproxyconnection with
    | none => (h.push line).point .pproxyconnection (some h.next)
    | some id => h.assign id line

def checkConnection (allowpersistent : Bool) (firstline : Str) (h : HTTPHeader) : HTTPHeader :=
  let allowed := h.persistency allowpersistent firstline
  let was := h.wasPersistent firstline
  { { h with waspersistent := was }.forceConnection allowed with ispersistent := allowed }

def checkheader (o : Options) (allowpersistent : Bool) (h : HTTPHeader) : HTTPHeader :=
  if h.header.length = 0 then { h with ispersistent := false }
  else
    let firstline := h.front
    let h := ((h.indexLines o).checkFirst firstline).checkConnection allowpersistent firstline
    if h.is_response then h
    else
      let (newurl, h) := h.getUrl true false
      h.setURL newurl

def isStatusLine (line : Str) : Bool :=
  line.length > 11 && startsWith line (str "HTTP/") && toInteger (before (after line (str " ")) (str " ")) > 99

/-- Reads lines up to one of at most three bytes. A first line that is so short is passed over. -/
def inLoop (o : Options) : Nat → Bool → HTTPHeader → BaseSocket → Bool × HTTPHeader × BaseSocket
  | 0, _, h, sock => (false, h, sock)
  | rounds + 1, firsttime, h, sock =>
    match sock.getLine o.max_header_line_length with
    | (none, sock) => (false, { h with ispersistent := false }, sock)
    | (some (_, false), sock) => (false, { h with ispersistent := false }, sock) -- truncated
    | (some (buff, true), sock) =>
      if h.header.length > o.max_header_lines then (false, { h with ispersistent := false }, sock)
      else
        let line := cstr buff
        if firsttime && h.is_response && !isStatusLine line then (false, h, sock)
        else if firsttime && line.length ≤ 3 then inLoop o rounds false h sock
        else if line.length > 3 then inLoop o rounds false (h.push line) sock
        else (true, h.push line, sock)

/-- The lines of a header, without the blank one; a round for each pending byte is enough. -/
def readLines (o : Options) (sock : BaseSocket) (h : HTTPHeader) : Bool × HTTPHeader × BaseSocket :=
  match inLoop o (sock.pending.length + 1) true h sock with
  | (false, h, sock) => (false, h, sock)
  | (true, h, sock) =>
    let h := { h with header := h.header.dropLast }
    (h.header.length > 0, h, sock)

def in_ (o : Options) (allowpersistent : Bool) (sock : BaseSocket) (h : HTTPHeader) : Bool × HTTPHeader × BaseSocket :=
  match { h.reset with dirty := true }.readLines o sock with
  | (false, h, sock) => (false, h, sock)
  | (true, h, sock) => (true, h.checkheader o allowpersistent, sock)

/- What is read off a header. -/

def contentLength (h : HTTPHeader) : Int := h.contentlength

def isPersistent (h : HTTPHeader) : Bool := h.ispersistent

def disposition (h : HTTPHeader) : Str :=
  match h.at_ .pcontentdisposition with
  | none => []
  | some line =>
    let filename := after (after line (str "filename")) (str "=")
    let filename := if contains filename (str ";") then before filename (str ";") else filename
    let filename := removeWhiteSpace filename
    if contains filename (str "\"") then before (after filename (str "\"")) (str "\"") else filename

def getContentType (h : HTTPHeader) : Str :=
  match h.at_ .pcontenttype with
  | none => str "-"
  | some line =>
    let mimetype := after line (str " ")
    if mimetype.length < 1 then str "-"
    else
      let mimetype := chop mimetype
      let mimetype := if contains mimetype (str " ") then before mimetype (str " ") else mimetype
      let mimetype := if contains mimetype (str ";") then before mimetype (str ";") else mimetype
      toLower mimetype

def encodingOf (p : Pointer) (h : HTTPHeader) : Str :=
  match h.at_ p with
  | none => []
  | some line => toLower (after line (str ": "))

def contentEncoding (h : HTTPHeader) : Str := h.encodingOf .pcontentencoding

def transferEncoding (h : HTTPHeader) : Str := h.encodingOf .ptransferencoding

def getAuthHeader (h : HTTPHeader) : Str :=
  match h.at_ .pheaderident with
  | none => []
  | some line => chop (after line (str " "))

/- Sending a header. -/

def ignored (line : Line) : Bool := startsWith line.text (str "X-E2G-IgnoreMe")

def sentLines (h : HTTPHeader) : List Str := (h.header.tail.filter fun l => !ignored l).map (·.text)

def stringHeader (h : HTTPHeader) : Str :=
  if h.header.length > 0 then
    ((h.header.filter fun l => !ignored l).flatMap fun l => l.text ++ [lf]) ++ crlf
  else []

def firstOut (h : HTTPHeader) : Str :=
  if h.isdirect ∧ !h.is_response then
    before h.front (str " ") ++ str " /" ++ before (after (after h.front (str "://")) (str "/")) (str " ") ++
      str " HTTP/1.1\r\n"
  else h.front ++ [lf]

def linesOut (o : Options) (s_clientip : Str) (h : HTTPHeader) : Str :=
  (h.sentLines.flatMap fun l => l ++ [lf]) ++
    (if !h.is_response ∧ o.forwarded_for ∧ !h.isdirect then str "X-Forwarded-For: " ++ s_clientip ++ crlf else []) ++ crlf

def bodyTunnel (h : HTTPHeader) : Option Int :=
  if !startsWith h.requesttype (str "HTTP") ∧ h.pointer .pcontentlength ≠ none then some h.contentLength else none

/-- All of a header and, from the other side, the body. A write that fails is tried once more on a
connection that is made again, if that is allowed and comes about. -/
def out (o : Options) (s_clientip : Str) (again : Option Destination) (peersock : Option BaseSocket)
    (sock : Destination) (h : HTTPHeader) : Bool × Option BaseSocket × Destination :=
  let again := if h.isdirect then none else again
  let first := if h.header.length > 0 then h.firstOut else []
  let (sent, again, sock) := match writeToSocket first sock with
    | (true, sock) => (true, again, sock)
    | (false, sock) =>
      match again with
      | none => (false, none, sock)
      | some sock =>
        let (sent, sock) := writeToSocket first sock
        (sent, none, sock)
  if !sent then (false, peersock, sock)
  else
    let lines := h.linesOut o s_clientip
    let (sent, sock) := match writeToSocket lines sock with
      | (true, sock) => (true, sock)
      | (false, sock) =>
        match again with
        | none => (false, sock)
        | some sock => if h.header.length = 0 then (false, sock) else writeToSocket (h.front ++ [lf] ++ lines) sock
    if !sent then (false, peersock, sock)
    else
      match peersock, h.bodyTunnel with
      | some peer, some length =>
        let (whole, _, peer, sock) := tunnel true length .fresh peer sock
        (whole, some peer, sock)
      | peersock, _ => (true, peersock, sock)

end HTTPHeader

/- What one line can lead to. -/

inductive Names : Pointer → String → Prop where
  | phost : Names .phost "host:"
  | pcontentencoding : Names .pcontentencoding "content-encoding:"
  | pkeepalive : Names .pkeepalive "keep-alive:"
  | pcontenttype : Names .pcontenttype "content-type:"
  | pcontentdisposition : Names .pcontentdisposition "content-disposition:"
  | pproxyauthorization : Names .pproxyauthorization "proxy-authorization:"
  | pauthorization : Names .pauthorization "authorization:"
  | pproxyauthenticate : Names .pproxyauthenticate "proxy-authenticate:"
  | proxyConnection : Names .pproxyconnection "proxy-connection:"
  | connection : Names .pproxyconnection "connection:"
  | pxforwardedfor : Names .pxforwardedfor "x-forwarded-for:"
  | pport : Names .pport "port:"
  | ptransfercoding : Names .ptransfercoding "transfer-coding:"

inductive Checked (outgoing : Bool) (i : Line) (x : Index) : Str × Index → Prop where
  | noted (p : Pointer) (name : String) (names : Names p name) (here : named i.text name = true) :
      Checked outgoing i x (i.text, x.point p (some i.id))
  | again (sent : outgoing = true) (here : named i.text "host:" = true) : Checked outgoing i x (removedHost, x)
  | agent (y : Index) (here : named i.text "user-agent:" = true)
      (same : y = { x with useragent := y.useragent } ∨
        y = { x with useragent := y.useragent }.point .puseragent (some i.id)) : Checked outgoing i x (i.text, y)
  | encoding (sent : outgoing = true) (here : named i.text "accept-encoding:" = true) :
      Checked outgoing i x (acceptEncoding i.text, x)
  | length (tp : Str) (here : named i.text "content-length:" = true) (value : headerVal i.text = some tp)
      (free : x.pointer .pcontentlength = none) :
      Checked outgoing i x (i.text, { x with contentlength := toOffset tp }.point .pcontentlength (some i.id))
  | transfer (here : named i.text "transfer-encoding:" = true) :
      Checked outgoing i x
        (i.text, { x.point .ptransferencoding (some i.id) with chunked := x.chunked || saysChunked i.text })
  | expect (here : named i.text "expect: 100-continue" = true) : Checked outgoing i x (i.text, { x with expects_100 := true })
  | other : Checked outgoing i x (i.text, x)

theorem name_of_guard {a b c : Bool} (guard : (a && b && c) = true) : c = true := by
  cases a <;> cases b <;> simp_all

theorem checkName_checked (outgoing : Bool) (i : Line) (x : Index) : Checked outgoing i x (checkName outgoing i x) := by
  have noted := @Checked.noted outgoing i x
  unfold checkName
  refine iteInduction (fun c => noted _ _ .phost (name_of_guard c)) fun _ => ?_
  refine iteInduction (fun c => ?_) fun _ => ?_
  · simp only [Bool.and_eq_true] at c
    exact .again c.1.1 c.2
  refine iteInduction (fun c => ?_) fun _ => ?_
  · split
    · exact .agent _ (name_of_guard c) (.inl rfl)
    · exact .agent _ (name_of_guard c) (.inr rfl)
  refine iteInduction (fun c => ?_) fun _ => ?_
  · simp only [Bool.and_eq_true] at c
    exact .encoding c.1 c.2
  refine iteInduction (fun c => noted _ _ .pcontentencoding (name_of_guard c)) fun _ => ?_
  refine iteInduction (fun c => noted _ _ .pkeepalive (name_of_guard c)) fun _ => ?_
  refine iteInduction (fun c => noted _ _ .pcontenttype (Bool.and_eq_true_iff.mp c).2) fun _ => ?_
  refine iteInduction (fun c => ?_) fun _ => ?_
  · simp only [Bool.and_eq_true, Option.isNone_iff_eq_none] at c
    split
    · exact .other
    · rename_i tp value
      exact .length tp c.2 value c.1
  refine iteInduction (fun c => noted _ _ .pcontentdisposition (Bool.and_eq_true_iff.mp c).2) fun _ => ?_
  refine iteInduction (fun c => noted _ _ .pproxyauthorization (Bool.and_eq_true_iff.mp c).2) fun _ => ?_
  refine iteInduction (fun c => noted _ _ .pauthorization (Bool.and_eq_true_iff.mp c).2) fun _ => ?_
  refine iteInduction (fun c => noted _ _ .pproxyauthenticate (Bool.and_eq_true_iff.mp c).2) fun _ => ?_
  refine iteInduction (fun c => ?_) fun _ => ?_
  · rcases Bool.or_eq_true_iff.mp (Bool.and_eq_true_iff.mp c).2 with proxy | plain
    · exact noted _ _ .proxyConnection proxy
    · exact noted _ _ .connection plain
  refine iteInduction (fun c => noted _ _ .pxforwardedfor (name_of_guard c)) fun _ => ?_
  refine iteInduction (fun c => noted _ _ .pport (name_of_guard c)) fun _ => ?_
  refine iteInduction (fun c => .transfer c) fun _ => ?_
  refine iteInduction (fun c => noted _ _ .ptransfercoding c) fun _ => ?_
  exact iteInduction (fun c => .expect c) fun _ => .other
end GuardianHttp
