import RouterShift.Text.Blank
import RouterShift.TypeScript.Rule

/-! The words and signs of TypeScript. Blanks and comments may stand before each of them, and a
    node starts behind those, so it reaches from its first character to its last. -/

namespace RouterShift.TypeScript

open Grammar Peg

/-! ### Classes of characters -/

/-- Blanks and the invisible characters that count as such. -/
def isBlank (c : Char) : Bool :=
  Text.isBlank c || c == '\ufeff' || c == '\u2060' || c == '\u200b'

/-- A line of code ends at a line feed; that is what an omitted semicolon needs. -/
def isLineFeed (c : Char) : Bool := c == '\n'

/-- A comment to the end of the line ends at any of these. -/
def isLineEnd (c : Char) : Bool := c == '\n' || c == '\r' || c == '\u2028' || c == '\u2029'

/-- The signs of ASCII that are no part of a word. -/
def signs : List Char :=
  [':', ';', '\x60', '"', '\'', '@', '#', '.', ',', '|', '^', '&', '<', '=', '>', '+', '-', '*',
    '/', '\\', '%', '?', '!', '~', '(', ')', '[', ']', '\x7b', '\x7d']

/-- A character of a name or a keyword: everything but blanks, controls and signs. -/
def isWordChar (c : Char) : Bool := !(c.toNat ≤ 0x1F || isBlank c || signs.contains c)

def isHexDigit (c : Char) : Bool :=
  ('0' ≤ c && c ≤ '9') || ('a' ≤ c && c ≤ 'f') || ('A' ≤ c && c ≤ 'F')

def isDecimal (c : Char) : Bool := ('0' ≤ c && c ≤ '9') || c == '_'

/-- A word starts with anything but a digit. -/
def isName (cs : List Char) : Bool :=
  match cs.head? with
  | some c => !('0' ≤ c && c ≤ '9')
  | none => false

/-- The words that cannot be used as a name of something. -/
def reserved : List (List Char) :=
  ["break", "case", "catch", "class", "const", "continue", "debugger", "default", "delete", "do",
    "else", "enum", "export", "extends", "false", "finally", "for", "function", "if", "import",
    "in", "instanceof", "new", "null", "return", "super", "switch", "this", "throw", "true", "try",
    "typeof", "var", "void", "while", "with"].map String.toList

/-! ### Tokens -/

/-- A part after blanks and comments. -/
def token (part : Form) : Form := seq (rule .trivia) part

/-- A node, starting behind blanks and comments. -/
def nodeOf (kind : Kind) (part : Form) : Form := token (node ⟨kind, none⟩ part)

/-- A node that a field of its parent names. -/
def fieldOf (field : Field) (kind : Kind) (part : Form) : Form := token (node ⟨kind, some field⟩ part)

/-- A sign. -/
def sign (s : String) : Form := token (text s.toList)

/-- A sign as a node, right here. -/
def bareSign (s : String) : Form := node ⟨.token s, none⟩ (text s.toList)

/-- A sign as a node. -/
def signNode (s : String) : Form := token (bareSign s)

/-- A sign that is not the beginning of a longer one. -/
def signNotBefore (s : String) (longer : Char → Bool) : Form :=
  token (seq (text s.toList) (absent (one longer)))

/-- A keyword. -/
def word (s : String) : Form := token (run isWordChar (· == s.toList))

/-- A keyword as a node. -/
def wordNode (s : String) : Form := nodeOf (.token s) (run isWordChar (· == s.toList))

/-- One of several keywords. -/
def wordOf (words : List String) : Form :=
  token (run isWordChar (fun cs => words.any fun w => cs == w.toList))

/-- A character of a name, written by its number. -/
def nameEscape : Form :=
  let hex := one isHexDigit
  choice (all [text ['\\', 'u'], hex, hex, hex, hex])
    (all [text ['\\', 'u', '\x7b'], run isHexDigit fun _ => true, text ['\x7d']])

/-- A word that is acceptable, or one with characters written by their numbers. -/
def nameOf (accepts : List Char → Bool) : Form :=
  choice (seq (run isWordChar accepts) (absent (text ['\\'])))
    (all [optional (run isWordChar isName), nameEscape,
      many (choice (run isWordChar fun _ => true) nameEscape)])

/-- A word that may name something. -/
def identifier : Form := token (nameOf fun cs => isName cs && !reserved.contains cs)

/-- Any word, as it may stand after a dot or before a colon. -/
def anyName : Form := token (nameOf isName)

/-- A name that only the class itself sees. -/
def privateName : Form := token (seq (text ['#']) (nameOf isName))

/-- Parts between commas, with an optional comma at the end; at least one. -/
def commaList (part : Form) : Form :=
  seq (separated (sign ",") part) (optional (sign ","))

/-- A part between two signs. -/
def within (opening : String) (part : Form) (closing : String) : Form :=
  all [sign opening, part, sign closing]

/-! ### Blanks, comments and the ends of statements -/

/-- A comment to the end of the line. -/
def lineComment : Form := seq (text ['/', '/']) (optional (run (!isLineEnd ·) fun _ => true))

/-- The characters of a comment between `/*` and `*/`, of those that `isIn` admits. -/
def blockComment (isIn : Char → Bool) : Form :=
  all [text ['/', '*'],
    many (choice (run (fun c => isIn c && c != '*') fun _ => true)
      (seq (text ['*']) (absent (text ['/'])))),
    text ['*', '/']]

def trivia : Form :=
  many (oneOf [run isBlank fun _ => true, lineComment, blockComment fun _ => true])

/-- Blanks and comments that stay on the line. -/
def sameLine : Form :=
  many (choice (run (fun c => isBlank c && !isLineFeed c) fun _ => true)
    (blockComment (!isLineFeed ·)))

/-- The next word or sign is on another line. -/
def newline : Form :=
  ahead (seq (rule .sameLine)
    (oneOf [one isLineFeed, text ['/', '/'], text ['/', '*']]))

def endOfText : Form := token (absent (one fun _ => true))

/-- The end of a statement: a semicolon, which may be left out before a closing brace, at the end
    of the text and at the end of a line. -/
def semicolon : Form :=
  oneOf [sign ";", rule .newline, ahead (sign "\x7d"), ahead (rule .endOfText)]

/-! ### Literals -/

/-- What may follow a backslash. -/
def escape : Form :=
  let hex := one isHexDigit
  seq (text ['\\']) (oneOf
    [all [text ['x'], hex, hex], all [text ['u'], hex, hex, hex, hex],
      all [text ['u', '\x7b'], run isHexDigit fun _ => true, text ['\x7d']],
      text ['\r', '\n'],
      one fun c => c != 'x' && c != 'u'])

/-- A literal between quotes. Its text stays on one line, but the closing quote is a sign of its
    own and may come on a later one. -/
def quotedBy (quote : Char) : Form :=
  all [text [quote],
    many (choice (run (fun c => c != quote && c != '\\' && c != '\n' && c != '\r') fun _ => true)
      (rule .escape)),
    token (text [quote])]

def quoted : Form := choice (quotedBy '\'') (quotedBy '"')

/-- A template between backticks, with `part` in its substitutions. -/
def templateOf (part : Form) : Form :=
  all [text ['\x60'],
    many (oneOf
      [run (fun c => c != '\x60' && c != '\\' && c != '$' && c != '\x00') fun _ => true,
        rule .escape,
        node ⟨.other "template_substitution", none⟩ (all [text ['$', '\x7b'], part, sign "\x7d"]),
        seq (text ['$']) (absent (text ['\x7b']))]),
    text ['\x60']]

def template : Form := templateOf (rule .expression)

def number : Form :=
  let digits := run isDecimal fun _ => true
  let point := seq (text ['.']) (optional digits)
  let exponent := all [one fun c => c == 'e' || c == 'E',
    optional (one fun c => c == '+' || c == '-'), digits]
  let plain := choice (seq digits (optional point)) (seq (text ['.']) digits)
  token (choice
    (seq (text ['0']) (seq (one fun c => "xXoObB".toList.contains c)
      (run (fun c => isHexDigit c || c == '_' || c == 'n') fun _ => true)))
    (all [plain, optional exponent, optional (text ['n']), absent (one isWordChar)]))

def regex : Form :=
  let escaped := seq (text ['\\']) (one (· != '\n'))
  let set := all [text ['['],
    many (choice escaped (run (fun c => c != ']' && c != '\\' && c != '\n') fun _ => true)),
    text [']']]
  let body := run (fun c => c != '[' && c != '/' && c != '\\' && c != '\n') fun _ => true
  token (all [text ['/'], absent (one fun c => c == '*' || c == '/'),
    many (oneOf [set, escaped, body]), text ['/'],
    optional (run (fun c => 'a' ≤ c && c ≤ 'z') fun _ => true)])

/-! ### Looking past a bracket -/

/-- A bracketed run of characters, read no closer than to find its end. -/
def group : Form :=
  let inside := many (rule .groupPart)
  oneOf [within "(" inside ")", within "[" inside "]", within "\x7b" inside "\x7d"]

/-- A piece of a bracketed run. -/
def groupPart : Form :=
  oneOf [rule .group, token (quotedBy '\''), token (quotedBy '"'),
    token (templateOf (many (rule .groupPart))),
    token (one fun c => !"()[]\x7b\x7d\"'\x60".toList.contains c)]

end RouterShift.TypeScript
