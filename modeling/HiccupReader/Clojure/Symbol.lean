import HiccupReader.RuleTable

/-! The symbols of the Clojure grammar. Rules stand in front of token kinds in its rule table. -/

namespace HiccupReader.Clojure

inductive Rule
  | code
  | tokens
  | forms
  | form
  | collection
  | list
  | vector
  | map
  | set
  | fnLiteral
  | readerConditional
  | namespacedMap
  | readerMacro
  | quote
  | backtick
  | unquoteSplicing
  | unquote
  | deref
  | metadata
  | varQuote
  | discard
  | taggedLiteral
  | literal
  | number
  | character
  | nil
  | boolean
  | keyword
  | string
  | regex
  | symbolicValue
  | symbol
  deriving DecidableEq

inductive TokenKind
  | leftParen
  | rightParen
  | leftBracket
  | rightBracket
  | leftBrace
  | rightBrace
  | hashBrace
  | hashParen
  | readerConditional
  | namespacedMapPrefix
  | quote
  | backtick
  | unquoteSplicing
  | unquote
  | deref
  | caret
  | varQuote
  | discard
  | tag
  | number
  | character
  | nil
  | boolean
  | keyword
  | string
  | regex
  | symbolicValue
  | symbol
  deriving DecidableEq

inductive Symbol
  | rule (r : Rule)
  | token (k : TokenKind)
  deriving DecidableEq

namespace Rule

def all : List Rule :=
  [code, tokens, forms, form, collection, list, vector, map, set, fnLiteral, readerConditional,
    namespacedMap, readerMacro, quote, backtick, unquoteSplicing, unquote, deref, metadata,
    varQuote, discard, taggedLiteral, literal, number, character, nil, boolean, keyword, string,
    regex, symbolicValue, symbol]

def index (r : Rule) : Nat := r.ctorIdx

def name : Rule → String
  | code => "code"
  | tokens => "tokens"
  | forms => "forms"
  | form => "form"
  | collection => "collection"
  | list => "list"
  | vector => "vector"
  | map => "map"
  | set => "set"
  | fnLiteral => "fn_literal"
  | readerConditional => "reader_conditional"
  | namespacedMap => "namespaced_map"
  | readerMacro => "reader_macro"
  | quote => "quote"
  | backtick => "backtick"
  | unquoteSplicing => "unquote_splicing"
  | unquote => "unquote"
  | deref => "deref"
  | metadata => "metadata"
  | varQuote => "var_quote"
  | discard => "discard"
  | taggedLiteral => "tagged_literal"
  | literal => "literal"
  | number => "number"
  | character => "character"
  | nil => "nil"
  | boolean => "boolean"
  | keyword => "keyword"
  | string => "string"
  | regex => "regex"
  | symbolicValue => "symbolic_value"
  | symbol => "symbol"

def entry (r : Rule) : RuleEntry := ⟨r.name, .parser, r == forms⟩

end Rule

namespace TokenKind

def all : List TokenKind :=
  [leftParen, rightParen, leftBracket, rightBracket, leftBrace, rightBrace, hashBrace, hashParen,
    readerConditional, namespacedMapPrefix, quote, backtick, unquoteSplicing, unquote, deref,
    caret, varQuote, discard, tag, number, character, nil, boolean, keyword, string, regex,
    symbolicValue, symbol]

def index (k : TokenKind) : Nat := Rule.all.length + k.ctorIdx

def ofIndex? (index : Nat) : Option TokenKind :=
  if index < Rule.all.length then none else all[index - Rule.all.length]?

def name : TokenKind → String
  | leftParen => "LPAREN"
  | rightParen => "RPAREN"
  | leftBracket => "LBRACKET"
  | rightBracket => "RBRACKET"
  | leftBrace => "LBRACE"
  | rightBrace => "RBRACE"
  | hashBrace => "HASH_BRACE"
  | hashParen => "HASH_PAREN"
  | readerConditional => "READER_COND"
  | namespacedMapPrefix => "NS_MAP_PREFIX"
  | quote => "QUOTE"
  | backtick => "BACKTICK"
  | unquoteSplicing => "UNQUOTE_SPLICING"
  | unquote => "UNQUOTE"
  | deref => "DEREF"
  | caret => "CARET"
  | varQuote => "VAR_QUOTE"
  | discard => "DISCARD"
  | tag => "TAG"
  | number => "NUMBER"
  | character => "CHARACTER"
  | nil => "NIL"
  | boolean => "BOOLEAN"
  | keyword => "KEYWORD"
  | string => "STRING"
  | regex => "REGEX"
  | symbolicValue => "SYMBOLIC_VALUE"
  | symbol => "SYMBOL"

def entry (k : TokenKind) : RuleEntry := { name := k.name, kind := .token }

theorem ofIndex?_index (k : TokenKind) : ofIndex? k.index = some k := by
  cases k <;> rfl

end TokenKind

def ruleTable : RuleTable where
  entries := Rule.all.map Rule.entry ++ TokenKind.all.map TokenKind.entry
  names_nodup := by decide +kernel

theorem Rule.get?_index (r : Rule) : ruleTable.get? r.index = some r.entry := by
  cases r <;> rfl

theorem TokenKind.get?_index (k : TokenKind) : ruleTable.get? k.index = some k.entry := by
  cases k <;> rfl

end HiccupReader.Clojure
