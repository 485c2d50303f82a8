import HiccupReader.Clojure.Symbol

/-! The productions of the Clojure grammar. A choice takes its first option that matches, and a
repetition takes all it can. -/

namespace HiccupReader.Clojure

inductive Part
  | one (s : Symbol)
  | many (options : List Symbol)
  | finish
  deriving DecidableEq

inductive Production
  | sequence (parts : List Part)
  | choice (options : List Symbol)
  deriving DecidableEq

def TokenKind.precedence : List TokenKind :=
  [string, regex, readerConditional, hashBrace, hashParen, varQuote, discard, symbolicValue,
    namespacedMapPrefix, tag, leftParen, rightParen, leftBracket, rightBracket, leftBrace,
    rightBrace, quote, backtick, unquoteSplicing, unquote, deref, caret, number, character, nil,
    boolean, keyword, symbol]

namespace Production

def enclosed (opening closing : TokenKind) : Production :=
  sequence [.one (.token opening), .one (.rule .forms), .one (.token closing)]

def prefixed (mark : TokenKind) : Production :=
  sequence [.one (.token mark), .one (.rule .form)]

def single (k : TokenKind) : Production := sequence [.one (.token k)]

end Production

open Production

def Rule.production : Rule → Production
  | code => sequence [.one (.rule .forms), .finish]
  | tokens => sequence [.many (TokenKind.precedence.map .token), .finish]
  | forms => sequence [.many [.rule .form]]
  | form => choice [.rule .collection, .rule .readerMacro, .rule .literal]
  | collection =>
    choice
      [.rule .list, .rule .vector, .rule .map, .rule .set, .rule .fnLiteral,
        .rule .readerConditional, .rule .namespacedMap]
  | list => enclosed .leftParen .rightParen
  | vector => enclosed .leftBracket .rightBracket
  | map => enclosed .leftBrace .rightBrace
  | set => enclosed .hashBrace .rightBrace
  | fnLiteral => enclosed .hashParen .rightParen
  | readerConditional => enclosed .readerConditional .rightParen
  | namespacedMap => sequence [.one (.token .namespacedMapPrefix), .one (.rule .map)]
  | readerMacro =>
    choice
      [.rule .quote, .rule .backtick, .rule .unquoteSplicing, .rule .unquote, .rule .deref,
        .rule .metadata, .rule .varQuote, .rule .discard, .rule .taggedLiteral]
  | quote => prefixed .quote
  | backtick => prefixed .backtick
  | unquoteSplicing => prefixed .unquoteSplicing
  | unquote => prefixed .unquote
  | deref => prefixed .deref
  | metadata => sequence [.one (.token .caret), .one (.rule .form), .one (.rule .form)]
  | varQuote => prefixed .varQuote
  | discard => prefixed .discard
  | taggedLiteral => prefixed .tag
  | literal =>
    choice
      [.rule .number, .rule .character, .rule .nil, .rule .boolean, .rule .keyword,
        .rule .string, .rule .regex, .rule .symbolicValue, .rule .symbol]
  | number => single .number
  | character => single .character
  | nil => single .nil
  | boolean => single .boolean
  | keyword => single .keyword
  | string => single .string
  | regex => single .regex
  | symbolicValue => single .symbolicValue
  | symbol => single .symbol

end HiccupReader.Clojure
