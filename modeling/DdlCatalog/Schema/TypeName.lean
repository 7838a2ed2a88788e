/-!
The names of column types, with several spellings folded into one name.
-/

namespace DdlCatalog

inductive TypeName
  | bit
  | tinyint
  | boolean
  | smallint
  | mediumint
  | int
  | bigint
  | decimal
  | float
  | double
  | date
  | time
  | datetime
  | timestamp
  | year
  | char
  | varchar
  | binary
  | varbinary
  | tinyblob
  | blob
  | mediumblob
  | longblob
  | tinytext
  | text
  | mediumtext
  | longtext
  | enum
  | set
  | json
  | geometry
  | point
  | linestring
  | polygon
  | multipoint
  | multilinestring
  | multipolygon
  | geometrycollection
  deriving DecidableEq

namespace TypeName

def all : List TypeName :=
  [.bit, .tinyint, .boolean, .smallint, .mediumint, .int, .bigint, .decimal, .float, .double, .date,
    .time, .datetime, .timestamp, .year, .char, .varchar, .binary, .varbinary, .tinyblob, .blob,
    .mediumblob, .longblob, .tinytext, .text, .mediumtext, .longtext, .enum, .set, .json, .geometry,
    .point, .linestring, .polygon, .multipoint, .multilinestring, .multipolygon, .geometrycollection]

def name : TypeName → String
  | .bit => "bit"
  | .tinyint => "tinyint"
  | .boolean => "boolean"
  | .smallint => "smallint"
  | .mediumint => "mediumint"
  | .int => "int"
  | .bigint => "bigint"
  | .decimal => "decimal"
  | .float => "float"
  | .double => "double"
  | .date => "date"
  | .time => "time"
  | .datetime => "datetime"
  | .timestamp => "timestamp"
  | .year => "year"
  | .char => "char"
  | .varchar => "varchar"
  | .binary => "binary"
  | .varbinary => "varbinary"
  | .tinyblob => "tinyblob"
  | .blob => "blob"
  | .mediumblob => "mediumblob"
  | .longblob => "longblob"
  | .tinytext => "tinytext"
  | .text => "text"
  | .mediumtext => "mediumtext"
  | .longtext => "longtext"
  | .enum => "enum"
  | .set => "set"
  | .json => "json"
  | .geometry => "geometry"
  | .point => "point"
  | .linestring => "linestring"
  | .polygon => "polygon"
  | .multipoint => "multipoint"
  | .multilinestring => "multilinestring"
  | .multipolygon => "multipolygon"
  | .geometrycollection => "geometrycollection"

def aliases : List (String × TypeName) :=
  [("bool", .boolean), ("integer", .int), ("dec", .decimal), ("numeric", .decimal),
    ("fixed", .decimal), ("real", .double), ("character", .char), ("nchar", .char),
    ("nvarchar", .varchar), ("long", .mediumtext), ("geomcollection", .geometrycollection)]

/-- The type that a word names on its own, in any letter case. -/
def ofWord? (word : String) : Option TypeName :=
  let lower := word.toLower
  (all.find? (·.name == lower)).or (aliases.lookup lower)

/-- Whether values of the type have a character set. -/
def isTextual : TypeName → Bool
  | .char | .varchar | .tinytext | .text | .mediumtext | .longtext | .enum | .set => true
  | _ => false

end TypeName

end DdlCatalog
