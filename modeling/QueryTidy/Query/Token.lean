import QueryTidy.Text.Basic

/-!
# Tokens

The words and signs of the query language. A word is a name, a name with a colon, or reserved;
reserved words keep the text as it was written, because most of them may also serve as names.
-/

namespace QueryTidy

/-- The aggregation operators. -/
inductive AggregateOp where
  | sum | avg | count | min | max | group | stddev | stdvar | topk | bottomk | countValues
  | quantile
  deriving DecidableEq, Repr

namespace AggregateOp

/-- All aggregation operators. -/
def all : List AggregateOp :=
  [.sum, .avg, .count, .min, .max, .group, .stddev, .stdvar, .topk, .bottomk, .countValues,
    .quantile]

/-- The word of an aggregation operator. -/
def word : AggregateOp → Text
  | .sum => "sum".toList
  | .avg => "avg".toList
  | .count => "count".toList
  | .min => "min".toList
  | .max => "max".toList
  | .group => "group".toList
  | .stddev => "stddev".toList
  | .stdvar => "stdvar".toList
  | .topk => "topk".toList
  | .bottomk => "bottomk".toList
  | .countValues => "count_values".toList
  | .quantile => "quantile".toList

end AggregateOp

/-- The reserved words. -/
inductive Reserved where
  | aggregate (op : AggregateOp)
  | and | or | unless | atan2
  | offset | grouping | dropping | on | ignoring | groupLeft | groupRight | bool
  | start | finish
  deriving DecidableEq, Repr

namespace Reserved

/-- All reserved words that are no aggregation operators. -/
def plain : List Reserved :=
  [.and, .or, .unless, .atan2, .offset, .grouping, .dropping, .on, .ignoring, .groupLeft,
    .groupRight, .bool, .start, .finish]

/-- All reserved words. -/
def all : List Reserved :=
  plain ++ AggregateOp.all.map .aggregate

/-- A reserved word in small letters. -/
def word : Reserved → Text
  | .aggregate op => op.word
  | .and => "and".toList
  | .or => "or".toList
  | .unless => "unless".toList
  | .atan2 => "atan2".toList
  | .offset => "offset".toList
  | .grouping => "by".toList
  | .dropping => "without".toList
  | .on => "on".toList
  | .ignoring => "ignoring".toList
  | .groupLeft => "group_left".toList
  | .groupRight => "group_right".toList
  | .bool => "bool".toList
  | .start => "start".toList
  | .finish => "end".toList

/-- The reserved word with the given text, in letters of either case. -/
def ofText? (text : Text) : Option Reserved :=
  all.find? fun w => w.word = Text.lower text

/-- The word may also stand for the name of a metric. -/
def isMetricName : Reserved → Bool
  | .aggregate _ => true
  | .and => true
  | .or => true
  | .unless => true
  | .offset => true
  | .grouping => true
  | .dropping => true
  | .start => true
  | .finish => true
  | _ => false

end Reserved

/-- The signs of the language. -/
inductive Sign where
  | leftParen | rightParen | leftBrace | rightBrace | leftBracket | rightBracket
  | comma | colon | at
  | plus | minus | times | divide | modulo | power
  | equal | notEqual | less | lessEqual | greater | greaterEqual
  | assign | matches | notMatches
  deriving DecidableEq, Repr

/-- A token. -/
inductive Token where
  | number (text : Text)
  | duration (text : Text)
  /-- A string literal, as the raw text between its quotes. -/
  | string (raw : Text)
  | identifier (text : Text)
  /-- A name that contains a colon. -/
  | metricName (text : Text)
  | reserved (word : Reserved) (text : Text)
  | sign (s : Sign)
  /-- The word `or` between label matchers. -/
  | alternative
  deriving DecidableEq, Repr

namespace Token

/-- The token of a word outside braces. -/
def ofWord (text : Text) : Token :=
  match Reserved.ofText? text with
  | some w => .reserved w text
  | none =>
      if Text.lower text = "inf".toList ∨ Text.lower text = "nan".toList then .number text
      else if ':' ∈ text then .metricName text
      else .identifier text

end Token

end QueryTidy
