import JavaSyntax.Lexer.Scan
import JavaSyntax.Parser.Machine
import JavaSyntax.Report.Snippet

/-!
# Parsing

A session answers calls one after the other over one token list, each from where the last one
stopped, also after an error. A parse is a session of one rule that has to read all tokens.
-/

namespace JavaSyntax

inductive Entry where
  | compilationUnit | expression | statement | classDeclaration | interfaceDeclaration | block
  | type
  deriving DecidableEq, Repr, Inhabited

def Entry.rule : Entry → Rule
  | .compilationUnit => .compilationUnit
  | .expression => .expression
  | .statement => .blockStatement
  | .classDeclaration => .classDeclaration
  | .interfaceDeclaration => .interfaceDeclaration
  | .block => .block
  | .type => .type

structure Session where
  env : Setting
  state : State

namespace Session

def start (tokens : TokenList) (options : ParseOptions) : Session :=
  ⟨⟨TokenStream.ofList tokens, options⟩, {}⟩

def index (p : Session) : Nat := p.state.index

def memo (p : Session) : PredictionMemo := p.state.memo

/-- The tokens that probes have consumed so far. -/
def speculated (p : Session) : Nat := p.state.speculated

/-- Levels enough for a list: so many rules can follow each other without reading a token. -/
def levels (p : Session) : Nat := 128 * (p.env.stream.length + 2)

def treeOf (env : Setting) (s : State) : Except ParseError Tree :=
  match s.draft.items with
  | t :: _ => .ok t
  | [] => .error (s.errorHere env .stalled)

def run (p : Session) (r : Rule) : Except ParseError Tree × Session :=
  match Machine.run p.env [.run p.levels r.body] (.done (p.state.fresh p.env)) with
  | .done s => (treeOf p.env s, { p with state := s })
  | .failed e s => (.error e, { p with state := s })

theorem run_eq (p : Session) (r : Rule) :
    p.run r =
      match r.body.run p.env p.levels (p.state.fresh p.env) with
      | .done s => (treeOf p.env s, { p with state := s })
      | .failed e s => (.error e, { p with state := s }) := by
  rw [run, Machine.run_task]

/-- Fails unless all tokens have been read. -/
def expectEnd (p : Session) : Except ParseError Unit :=
  if p.env.stream.kindAt p.state.index = .eof then .ok ()
  else .error (p.state.unexpected p.env (.single .eof) none)

end Session

inductive Request where
  | entry (e : Entry)
  | expectEnd
  deriving DecidableEq, Repr, Inhabited

/-- What a call comes to, and the session as it leaves it. -/
structure Reply where
  /-- Checking the end yields no tree. -/
  result : Except ParseError (Option Tree)
  session : Session

namespace Session

def perform (p : Session) : Request → Reply
  | .entry e => ⟨(p.run e.rule).1.map some, (p.run e.rule).2⟩
  | .expectEnd => ⟨p.expectEnd.map fun _ => none, p⟩

def replies (p : Session) : List Request → List Reply
  | [] => []
  | r :: rs =>
    let reply := p.perform r
    reply :: reply.session.replies rs

@[simp] theorem length_replies (p : Session) (rs : List Request) :
    (p.replies rs).length = rs.length := by
  induction rs generalizing p with
  | nil => rfl
  | cons r rs ih => simp [replies, ih]

end Session

/-- The tree that a rule makes of a whole token list. -/
def Rule.parseAll (r : Rule) (tokens : TokenList) (options : ParseOptions := {}) :
    Except ParseError Tree :=
  match (Session.start tokens options).run r with
  | (.error e, _) => .error e
  | (.ok tree, p) =>
    match p.expectEnd with
    | .ok () => .ok tree
    | .error e => .error e

def parse (entry : Entry) (tokens : TokenList) (options : ParseOptions := {}) :
    Except ParseError Tree :=
  entry.rule.parseAll tokens options

inductive SourceError where
  | lex (e : LexError)
  | parse (e : ParseError)
  deriving DecidableEq, Repr, Inhabited

namespace SourceError

def code : SourceError → ErrorCode
  | lex e => e.code
  | parse e => e.code

def diagnostic : SourceError → Diagnostic
  | lex e => e.diagnostic
  | parse e => e.diagnostic

/-- The error against the source that it came from, not written to a terminal. -/
def render (e : SourceError) (path source : String) (color : ColorMode) : String :=
  (Renderer.new path source (color.enabled false)).render e.diagnostic

end SourceError

def parseSource (source : String) : Except SourceError Tree :=
  match lex source with
  | .error e => .error (.lex e)
  | .ok tokens => (parse .compilationUnit tokens).mapError .parse

end JavaSyntax
